import SmtpMta.Server.Smtp

/-! Lists of lines in memory: what storing, walking and freeing them does to the
texts they hold, and which other lines it leaves alone. -/
namespace SmtpMta.Server.Lines
open Library.CString Library.Ring Common.ListHead Smtp

/-- A pointer to a ring of lines with these texts, in `next` order. -/
structure Holds (mem : Memory) (lines : Option Addr) (members : List Addr) (texts : List Bytes) :
    Prop where
  head : lines = members.head?
  ring : members ≠ [] → IsRing mem.lists members
  texts : members.map (fun a => (mem.text a).map cstr) = texts.map some

/-- The two memories agree on a line. -/
def Same (mem mem' : Memory) (a : Addr) : Prop :=
  mem'.lists a = mem.lists a ∧ mem'.text a = mem.text a

theorem Same.refl (mem : Memory) (a : Addr) : Same mem mem a := ⟨rfl, rfl⟩

theorem Same.trans {mem₁ mem₂ mem₃ : Memory} {a : Addr} (h : Same mem₁ mem₂ a)
    (h' : Same mem₂ mem₃ a) : Same mem₁ mem₃ a :=
  ⟨h'.1.trans h.1, h'.2.trans h.2⟩

@[simp] theorem holds_nil (mem : Memory) : Holds mem none [] [] :=
  ⟨rfl, fun h => absurd rfl h, rfl⟩

theorem Holds.frame {mem mem' : Memory} {lines : Option Addr} {members : List Addr}
    {texts : List Bytes} (h : Holds mem lines members texts)
    (hsame : ∀ a ∈ members, Same mem mem' a) : Holds mem' lines members texts := by
  refine ⟨h.head, fun hne => (h.ring hne).congr fun a ha => (hsame a ha).1, ?_⟩
  rw [← h.texts]
  exact List.map_congr_left fun a ha => by rw [(hsame a ha).2]

theorem Holds.cons_of_some {mem : Memory} {head : Addr} {members : List Addr} {texts : List Bytes}
    (h : Holds mem (some head) members texts) : ∃ rest, members = head :: rest := by
  obtain ⟨rest, hrest⟩ := List.head?_eq_some_iff.mp h.head.symm
  exact ⟨rest, hrest⟩

theorem Holds.nil_of_none {mem : Memory} {members : List Addr} {texts : List Bytes}
    (h : Holds mem none members texts) : members = [] ∧ texts = [] := by
  have hnil : members = [] := List.head?_eq_none_iff.mp h.head.symm
  have htexts := h.texts
  rw [hnil, List.map_nil] at htexts
  exact ⟨hnil, List.map_eq_nil_iff.mp htexts.symm⟩

theorem Holds.lines_eq_none_iff {mem : Memory} {lines : Option Addr} {members : List Addr}
    {texts : List Bytes} (h : Holds mem lines members texts) : lines = none ↔ texts = [] := by
  have hlen : members.length = texts.length := by simpa using congrArg List.length h.texts
  rw [h.head, List.head?_eq_none_iff, ← List.length_eq_zero_iff, hlen, List.length_eq_zero_iff]

theorem cstr_fill (data : Bytes) (len : Nat) :
    cstr (strncpy (List.replicate (len + 1) nul) data len) = (cstr data).take len := by
  have hfree : NulFree ((cstr data).take len) := (cstr_nulFree data).of_sublist (List.take_sublist ..)
  have hdrop : (List.replicate (len + 1) nul).drop len = [nul] := by simp
  rw [strncpy, hdrop]
  cases hpad : len - ((cstr data).take len).length with
  | zero => simpa using cstr_append_nul hfree []
  | succ pad => simpa [List.replicate_succ] using cstr_append_nul hfree _

theorem fillLine_holds (mem : Memory) (line : Addr) (data : Bytes) (len : Nat) :
    ∃ mem', fillLine mem line data len = some mem' ∧
      Holds mem' (some line) [line] [(cstr data).take len] ∧ mem'.brk = mem.brk ∧
        mem'.oom = mem.oom ∧ ∀ a, a ≠ line → Same mem mem' a := by
  obtain ⟨lists, hinit, hring, -, hframe⟩ :=
    listInit_ring (m := Function.update mem.lists line (some ⟨none, none⟩)) (a := line) (by simp)
  let block := strncpy (List.replicate (len + 1) nul) data len
  refine ⟨{ mem with lists, text := Function.update mem.text line (some block) },
    by simp [fillLine, hinit, block], ?_, rfl, rfl, ?_⟩
  · refine ⟨rfl, fun _ => hring, ?_⟩
    simp [block, cstr_fill]
  · intro a ha
    exact ⟨(hframe a ha).trans (Function.update_of_ne ha ..), Function.update_of_ne ha ..⟩

/-- Where `list_add` puts a new element: behind the first one. -/
def insertSecond {α : Type} (x : α) : List α → List α
  | [] => [x]
  | head :: rest => head :: x :: rest

theorem insertSecond_perm {α : Type} (x : α) (xs : List α) :
    (insertSecond x xs).Perm (x :: xs) := by
  cases xs with
  | nil => exact .refl _
  | cons head rest => exact .swap ..

theorem storeLine_holds {mem : Memory} {lines : Option Addr} {members : List Addr}
    {texts : List Bytes} {line : Addr} {text : Bytes} (h : Holds mem lines members texts)
    (hline : Holds mem (some line) [line] [text]) (hfresh : line ∉ members) :
    ∃ mem' lines', storeLine mem lines line = some (mem', lines') ∧
      Holds mem' lines' (insertSecond line members) (insertSecond text texts) ∧
        mem'.brk = mem.brk ∧ mem'.oom = mem.oom ∧
          ∀ a, a ≠ line → a ∉ members → Same mem mem' a := by
  cases lines with
  | none =>
    obtain ⟨rfl, rfl⟩ := h.nil_of_none
    exact ⟨mem, some line, rfl, hline, rfl, rfl, fun a _ _ => .refl mem a⟩
  | some head =>
    obtain ⟨rest, rfl⟩ := h.cons_of_some
    have hsome : (mem.lists line).isSome := (hline.ring (by simp)).isSome (by simp)
    obtain ⟨lists, hadd, hring, -, hframe⟩ := listAdd_ring (h.ring (by simp)) hfresh hsome
    obtain ⟨t, ts, rfl⟩ : ∃ t ts, texts = t :: ts := by
      cases texts with
      | nil => simpa using h.texts
      | cons t ts => exact ⟨t, ts, rfl⟩
    have htexts := h.texts
    have htext := hline.texts
    simp only [List.map_cons, List.map_nil, List.cons.injEq] at htexts htext
    refine ⟨{ mem with lists }, some head, by simp [storeLine, hadd], ?_, rfl, rfl, ?_⟩
    · refine ⟨rfl, fun _ => hring, ?_⟩
      simp [insertSecond, htexts, htext.1]
    · intro a ha hmem
      refine ⟨hframe a ?_, rfl⟩
      simp only [List.mem_cons, not_or] at hmem ⊢
      exact ⟨hmem.1, ha, hmem.2⟩

theorem Holds.append {mem : Memory} {head : Addr} {members : List Addr} {texts : List Bytes}
    {line : Addr} {text : Bytes} (h : Holds mem (some head) members texts)
    (hline : Holds mem (some line) [line] [text]) (hfresh : line ∉ members) :
    ∃ lists, listAddTail mem.lists head line = some lists ∧
      Holds { mem with lists } (some head) (members ++ [line]) (texts ++ [text]) ∧
        ∀ a, a ≠ line → a ∉ members → lists a = mem.lists a := by
  obtain ⟨rest, rfl⟩ := h.cons_of_some
  have hsome : (mem.lists line).isSome := (hline.ring (by simp)).isSome (by simp)
  obtain ⟨lists, hadd, hring, -, hframe⟩ := listAddTail_ring (h.ring (by simp)) hfresh hsome
  have htexts := h.texts
  have htext := hline.texts
  refine ⟨lists, hadd, ⟨rfl, fun _ => hring, ?_⟩, fun a ha hmem => hframe a ?_⟩
  · simp only [List.map_append, htexts, htext]
  · simp only [List.mem_cons, not_or] at hmem ⊢
    tauto

structure Freed (mem mem' : Memory) (members : List Addr) : Prop where
  same : ∀ a, a ∉ members → Same mem mem' a
  gone : ∀ a ∈ members, mem'.lists a = none
  brk : mem'.brk = mem.brk
  oom : mem'.oom = mem.oom

theorem freeLine_freed {mem : Memory} {line : Addr} (h : (mem.lists line).isSome) :
    ∃ mem', freeLine mem line = some mem' ∧ Freed mem mem' [line] := by
  obtain ⟨links, hlinks⟩ := Option.isSome_iff_exists.mp h
  refine ⟨{ mem with lists := Function.update mem.lists line none,
                     text := Function.update mem.text line none },
    by simp [freeLine, hlinks], fun a ha => ?_, fun a ha => ?_, rfl, rfl⟩
  · have hne : a ≠ line := by simpa using ha
    exact ⟨Function.update_of_ne hne .., Function.update_of_ne hne ..⟩
  · obtain rfl : a = line := by simpa using ha
    exact Function.update_self ..

theorem Freed.trans {mem₁ mem₂ mem₃ : Memory} {xs ys : List Addr} (h : Freed mem₁ mem₂ xs)
    (h' : Freed mem₂ mem₃ ys) : Freed mem₁ mem₃ (xs ++ ys) := by
  refine ⟨fun a ha => ?_, fun a ha => ?_, h'.brk.trans h.brk, h'.oom.trans h.oom⟩
  · rw [List.mem_append, not_or] at ha
    exact (h.same a ha.1).trans (h'.same a ha.2)
  · by_cases hy : a ∈ ys
    · exact h'.gone a hy
    · rw [(h'.same a hy).1]
      exact h.gone a ((List.mem_append.mp ha).resolve_right hy)

/-- What the loop does with one line: it reads its `next`, or frees it. -/
inductive Access where
  | read (line : Addr)
  | free (line : Addr)
deriving DecidableEq

def Access.line : Access → Addr
  | .read line => line
  | .free line => line

/-- The loop of `free_smtp_lines` with its accesses in order. -/
def freeLinesTraced (lines : Addr) : Nat → Memory → Addr → Addr → Option (Memory × List Access)
  | 0, _, _, _ => none
  | bound + 1, mem, head, next => do
      let mem ← freeLine mem head
      if next ≠ lines then
        let (mem, rest) ← freeLinesTraced lines bound mem next (← nextOf mem.lists next)
        some (mem, .free head :: .read next :: rest)
      else some (mem, [.free head])

theorem freeLinesTraced_fst (lines : Addr) (bound : Nat) (mem : Memory) (head next : Addr) :
    (freeLinesTraced lines bound mem head next).map Prod.fst =
      freeLines lines bound mem head next := by
  induction bound generalizing mem head next with
  | zero => rfl
  | succ bound ih =>
    cases hfree : freeLine mem head with
    | none => simp [freeLinesTraced, freeLines, hfree]
    | some mem' =>
      by_cases hnext : next = lines
      · simp [freeLinesTraced, freeLines, hfree, hnext]
      · cases hafter : nextOf mem'.lists next with
        | none => simp [freeLinesTraced, freeLines, hfree, hnext, hafter]
        | some after =>
          rw [freeLines, freeLinesTraced]
          simp only [hfree, ne_eq, hnext, not_false_eq_true, if_true, hafter, Option.bind_eq_bind,
            Option.bind_some, ← ih]
          cases freeLinesTraced lines bound mem' next after <;> rfl

/-- The accesses to lines that are freed in this order. -/
def releases (head : Addr) : List Addr → List Access
  | [] => [.free head]
  | next :: rest => .free head :: .read next :: releases next rest

/-- From any member on, the loop frees the rest of the ring. Each pointer is
read before the line that holds it is freed. -/
theorem freeLinesTraced_freed {m : Lists} {h : Addr} {xs : List Addr} (hring : IsRing m (h :: xs))
    {rest done : List Addr} {head : Addr} (hsplit : h :: xs = done ++ head :: rest) {mem : Memory}
    (hsame : ∀ a ∈ head :: rest, mem.lists a = m a) {bound : Nat} (hbound : rest.length < bound) :
    ∃ mem', freeLinesTraced h bound mem head (rest.headD h) = some (mem', releases head rest) ∧
      Freed mem mem' (head :: rest) := by
  induction rest generalizing done head mem bound with
  | nil =>
    obtain ⟨bound, rfl⟩ := Nat.exists_eq_succ_of_ne_zero (Nat.ne_of_gt hbound)
    have hsome : (mem.lists head).isSome := by
      rw [hsame head (by simp)]
      exact hring.isSome (by simp [hsplit])
    obtain ⟨mem', hfree, hfreed⟩ := freeLine_freed hsome
    exact ⟨mem', by simp [freeLinesTraced, hfree, releases], hfreed⟩
  | cons next rest ih =>
    obtain ⟨bound, rfl⟩ := Nat.exists_eq_succ_of_ne_zero (Nat.ne_of_gt (Nat.zero_lt_of_lt hbound))
    have hsome : (mem.lists head).isSome := by
      rw [hsame head (by simp)]
      exact hring.isSome (by simp [hsplit])
    obtain ⟨mem₁, hfree, hfreed⟩ := freeLine_freed hsome
    have hsplit' : h :: xs = (done ++ [head]) ++ next :: rest := by simpa using hsplit
    have hnodup : (head :: next :: rest).Nodup := by
      have := hring.nodup
      rw [hsplit] at this
      exact (List.nodup_append.mp this).2.1
    have hsame' : ∀ a ∈ next :: rest, mem₁.lists a = m a := by
      intro a ha
      have hne : a ≠ head := fun heq => (List.nodup_cons.mp hnodup).1 (heq ▸ ha)
      rw [(hfreed.same a (by simpa using hne)).1, hsame a (by simp [ha])]
    have hnext : nextOf mem₁.lists next = some (rest.headD h) := by
      rw [nextOf, hsame' next (by simp)]
      exact hring.nextOf_of_split hsplit'
    have hne : next ≠ h := hring.ne_head_of_split (by simp) hsplit'
    obtain ⟨mem', hloop, hfreed'⟩ :=
      ih hsplit' hsame' (by simpa using Nat.lt_of_succ_lt_succ hbound)
    refine ⟨mem', ?_, hfreed.trans hfreed'⟩
    simp only [freeLinesTraced, hfree, List.headD_cons, ne_eq, hne, not_false_eq_true, if_true,
      hnext, Option.bind_eq_bind, Option.bind_some, hloop, releases]

theorem freeSmtpLines_freed {mem : Memory} {head : Addr} {rest : List Addr}
    (hring : IsRing mem.lists (head :: rest)) (hbound : rest.length < mem.bound) :
    ∃ mem', freeLinesTraced head mem.bound mem head (rest.headD head) =
        some (mem', releases head rest) ∧
      freeSmtpLines mem head = some mem' ∧ Freed mem mem' (head :: rest) := by
  obtain ⟨mem', htrace, hfreed⟩ :=
    freeLinesTraced_freed hring (List.nil_append _).symm (fun _ _ => rfl) hbound
  have hloop := freeLinesTraced_fst head mem.bound mem head (rest.headD head)
  rw [htrace, Option.map_some] at hloop
  refine ⟨mem', htrace, ?_, hfreed⟩
  rw [freeSmtpLines, hring.nextOf_head]
  exact hloop.symm

theorem freeIfAny_freed {mem : Memory} {lines : Option Addr} {members : List Addr}
    {texts : List Bytes} (h : Holds mem lines members texts) (hbound : members.length ≤ mem.brk) :
    ∃ mem', freeIfAny mem lines = some mem' ∧ Freed mem mem' members := by
  cases lines with
  | none =>
    obtain ⟨rfl, -⟩ := h.nil_of_none
    exact ⟨mem, rfl, fun a _ => .refl mem a, by simp, rfl, rfl⟩
  | some head =>
    obtain ⟨rest, rfl⟩ := h.cons_of_some
    have hlt : rest.length < mem.bound := by
      rw [List.length_cons] at hbound
      exact Nat.lt_succ_of_lt hbound
    obtain ⟨mem', -, hfree, hfreed⟩ := freeSmtpLines_freed (h.ring (by simp)) hlt
    exact ⟨mem', hfree, hfreed⟩

/-- `list_foreach` over lines, with the string of each. -/
def foreachText (mem : Memory) (lines : Option Addr) : Option (List Bytes) :=
  match lines with
  | none => some []
  | some head => do
      let members ← listForeach mem.lists head mem.bound head
      members.mapM fun line => (mem.text line).map cstr

theorem mapM_eq_some {α β : Type} {f : α → Option β} {xs : List α} {ys : List β}
    (h : xs.map f = ys.map some) : xs.mapM f = some ys := by
  induction xs generalizing ys with
  | nil => simp [List.map_eq_nil_iff.mp h.symm]
  | cons x xs ih =>
    cases ys with
    | nil => simp at h
    | cons y ys =>
      obtain ⟨hx, hxs⟩ := List.cons.inj h
      simp [List.mapM_cons, hx, ih hxs]

theorem Holds.foreachText {mem : Memory} {lines : Option Addr} {members : List Addr}
    {texts : List Bytes} (h : Holds mem lines members texts) (hbound : members.length ≤ mem.brk) :
    Lines.foreachText mem lines = some texts := by
  cases lines with
  | none =>
    obtain ⟨rfl, rfl⟩ := h.nil_of_none
    rfl
  | some head =>
    obtain ⟨rest, rfl⟩ := h.cons_of_some
    have hlt : rest.length < mem.bound := by
      rw [List.length_cons] at hbound
      exact Nat.lt_succ_of_lt hbound
    have hwalk := listForeach_ring (h.ring (by simp)) hlt
    simp only [Lines.foreachText, hwalk, Option.bind_eq_bind, Option.bind_some]
    exact mapM_eq_some h.texts

end SmtpMta.Server.Lines
