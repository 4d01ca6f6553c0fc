import SmtpMta.Server.Lines

/-! Rings of lines as the list operations build them, from whichever member they
are released. -/
namespace SmtpMta.Server.LineRings
open Library.Ring Common.ListHead Smtp Lines

structure Allocated (mem : Memory) (a : Addr) : Prop where
  below : a < mem.brk
  linked : (mem.lists a).isSome

/-- A ring of separately allocated lines, the last one added first. Between two
operations the other lines may change in any way. -/
inductive Built : Memory → List Addr → Prop where
  | init {mem : Memory} {lists : Lists} {a : Addr} : Allocated mem a →
      listInit mem.lists a = some lists → Built { mem with lists } [a]
  | add {mem : Memory} {lists : Lists} {members : List Addr} {head a : Addr} :
      Built mem members → head ∈ members → Allocated mem a → a ∉ members →
      listAdd mem.lists head a = some lists → Built { mem with lists } (a :: members)
  | addTail {mem : Memory} {lists : Lists} {members : List Addr} {head a : Addr} :
      Built mem members → head ∈ members → Allocated mem a → a ∉ members →
      listAddTail mem.lists head a = some lists → Built { mem with lists } (a :: members)
  | elsewhere {mem mem' : Memory} {members : List Addr} : Built mem members →
      mem.brk ≤ mem'.brk → (∀ a ∈ members, mem'.lists a = mem.lists a) → Built mem' members

theorem ring_from {lists : Lists} {members : List Addr} {head : Addr}
    (h : ∃ xs, IsRing lists xs ∧ xs.Perm members) (hhead : head ∈ members) :
    ∃ rest, IsRing lists (head :: rest) ∧ (head :: rest).Perm members := by
  obtain ⟨xs, hring, hperm⟩ := h
  obtain ⟨rest, hring, hrest⟩ := hring.from_member (hperm.mem_iff.mpr hhead)
  exact ⟨rest, hring, hrest.trans hperm⟩

theorem Built.ring {mem : Memory} {members : List Addr} (h : Built mem members) :
    (∀ a ∈ members, a < mem.brk) ∧ ∃ xs, IsRing mem.lists xs ∧ xs.Perm members := by
  induction h with
  | init hnew hinit =>
    obtain ⟨lists, hinit', hring, -⟩ := listInit_ring hnew.linked
    obtain rfl := Option.some.inj (hinit.symm.trans hinit')
    exact ⟨by simpa using hnew.below, _, hring, .refl _⟩
  | add _ hhead hnew hfresh hadd ih =>
    obtain ⟨hbelow, hring⟩ := ih
    obtain ⟨rest, hring, hperm⟩ := ring_from hring hhead
    obtain ⟨lists, hadd', hring', -⟩ :=
      listAdd_ring hring (fun hin => hfresh (hperm.mem_iff.mp hin)) hnew.linked
    obtain rfl := Option.some.inj (hadd.symm.trans hadd')
    exact ⟨List.forall_mem_cons.mpr ⟨hnew.below, hbelow⟩, _, hring',
      (List.Perm.swap _ _ _).trans (hperm.cons _)⟩
  | addTail _ hhead hnew hfresh hadd ih =>
    obtain ⟨hbelow, hring⟩ := ih
    obtain ⟨rest, hring, hperm⟩ := ring_from hring hhead
    obtain ⟨lists, hadd', hring', -⟩ :=
      listAddTail_ring hring (fun hin => hfresh (hperm.mem_iff.mp hin)) hnew.linked
    obtain rfl := Option.some.inj (hadd.symm.trans hadd')
    exact ⟨List.forall_mem_cons.mpr ⟨hnew.below, hbelow⟩, _, hring',
      (List.perm_append_singleton _ _).trans (hperm.cons _)⟩
  | elsewhere _ hbrk hsame ih =>
    obtain ⟨hbelow, xs, hring, hperm⟩ := ih
    exact ⟨fun a ha => (hbelow a ha).trans_le hbrk, xs,
      hring.congr fun a ha => hsame a (hperm.mem_iff.mp ha), hperm⟩

/-- `free_smtp_lines` with its accesses in order. -/
def freeSmtpLinesTraced (mem : Memory) (lines : Addr) : Option (Memory × List Access) := do
  let (mem, rest) ← freeLinesTraced lines mem.bound mem lines (← nextOf mem.lists lines)
  some (mem, .read lines :: rest)

theorem freeSmtpLinesTraced_fst (mem : Memory) (lines : Addr) :
    (freeSmtpLinesTraced mem lines).map Prod.fst = freeSmtpLines mem lines := by
  cases hnext : nextOf mem.lists lines with
  | none => simp [freeSmtpLinesTraced, freeSmtpLines, hnext]
  | some next =>
    simp only [freeSmtpLinesTraced, freeSmtpLines, hnext, Option.bind_eq_bind, Option.bind_some,
      ← freeLinesTraced_fst]
    cases freeLinesTraced lines mem.bound mem lines next <;> rfl

def frees (trace : List Access) : List Addr :=
  trace.filterMap fun access => match access with
    | .read _ => none
    | .free line => some line

/-- A line that has been freed is not accessed again. -/
def NoUseAfterFree (trace : List Access) : Prop :=
  trace.Pairwise fun before after => ∀ line, before = .free line → after.line ≠ line

theorem frees_releases (head : Addr) (rest : List Addr) :
    frees (releases head rest) = head :: rest := by
  induction rest generalizing head with
  | nil => rfl
  | cons next rest ih => simpa [releases, frees] using ih next

theorem line_mem_of_releases {head : Addr} {rest : List Addr} {access : Access}
    (h : access ∈ releases head rest) : access.line ∈ head :: rest := by
  induction rest generalizing head with
  | nil =>
    obtain rfl := List.mem_singleton.mp h
    simp [Access.line]
  | cons next rest ih =>
    simp only [releases, List.mem_cons] at h
    rcases h with rfl | rfl | h
    · simp [Access.line]
    · simp [Access.line]
    · exact List.mem_cons_of_mem head (ih h)

theorem noUseAfterFree_releases {head : Addr} {rest : List Addr} (h : (head :: rest).Nodup) :
    NoUseAfterFree (releases head rest) := by
  induction rest generalizing head with
  | nil => exact List.pairwise_singleton ..
  | cons next rest ih =>
    obtain ⟨hhead, hrest⟩ := List.nodup_cons.mp h
    have hlater : ∀ access ∈ Access.read next :: releases next rest, access.line ≠ head := by
      intro access haccess heq
      rcases List.mem_cons.mp haccess with rfl | haccess
      · exact hhead (by simp [← heq, Access.line])
      · exact hhead (heq ▸ line_mem_of_releases haccess)
    refine List.pairwise_cons.mpr ⟨fun access haccess line hline => ?_, ?_⟩
    · obtain rfl := Access.free.inj hline
      exact hlater access haccess
    · exact List.pairwise_cons.mpr ⟨fun _ _ _ hline => by simp at hline, ih hrest⟩

/-- From any member of a ring the loop ends, frees each member once and no other
line, and does not read what it has freed. -/
theorem freeSmtpLines_ring {mem : Memory} {members : List Addr} (h : Built mem members)
    {lines : Addr} (hlines : lines ∈ members) :
    ∃ mem' trace, freeSmtpLinesTraced mem lines = some (mem', trace) ∧
      freeSmtpLines mem lines = some mem' ∧ Freed mem mem' members ∧ members.Nodup ∧
      (frees trace).Perm members ∧ NoUseAfterFree trace := by
  obtain ⟨hbelow, hring⟩ := h.ring
  obtain ⟨rest, hring, hperm⟩ := ring_from hring hlines
  have hlen : members.length ≤ mem.brk :=
    length_le_of_forall_lt (hperm.nodup_iff.mp hring.nodup) hbelow
  have hbound : rest.length < mem.bound := by
    rw [← hperm.length_eq, List.length_cons] at hlen
    exact Nat.lt_succ_of_lt hlen
  obtain ⟨mem', htrace, hfree, hfreed⟩ := freeSmtpLines_freed hring hbound
  refine ⟨mem', .read lines :: releases lines rest, ?_, hfree, ?_, hperm.nodup_iff.mp hring.nodup,
    ?_, ?_⟩
  · rw [freeSmtpLinesTraced, hring.nextOf_head, Option.bind_eq_bind, Option.bind_some, htrace]
    rfl
  · exact ⟨fun a ha => hfreed.same a fun hin => ha (hperm.mem_iff.mp hin),
      fun a ha => hfreed.gone a (hperm.mem_iff.mpr ha), hfreed.brk, hfreed.oom⟩
  · have hfrees : frees (.read lines :: releases lines rest) = lines :: rest :=
      frees_releases lines rest
    rwa [hfrees]
  · refine List.pairwise_cons.mpr ⟨fun _ _ _ hline => by simp at hline, ?_⟩
    exact noUseAfterFree_releases hring.nodup

def apart : Memory where
  lists a := if a < 2 then some ⟨none, none⟩ else none
  text _ := none
  brk := 2
  oom _ := false

def linked : Memory :=
  { apart with lists := fun a => if a < 2 then some ⟨some (1 - a), some (1 - a)⟩ else none }

theorem freeSmtpLines_ring_linked : ∃ mem' trace,
    freeSmtpLinesTraced linked 1 = some (mem', trace) ∧ mem'.lists 0 = none ∧ mem'.lists 1 = none ∧
      (frees trace).Perm [1, 0] := by
  have hone : Built _ [0] := @Built.init apart _ 0 ⟨by decide, rfl⟩ rfl
  have htwo : Built _ [1, 0] := @Built.add _ _ _ 0 1 hone (by simp) ⟨by decide, rfl⟩ (by simp) rfl
  have hbuilt : Built linked [1, 0] := htwo.elsewhere le_rfl (by decide)
  have hmem : 1 ∈ [1, 0] := by simp
  obtain ⟨mem', trace, htrace, -, hfreed, -, hfrees, -⟩ := freeSmtpLines_ring hbuilt hmem
  exact ⟨mem', trace, htrace, hfreed.gone 0 (by simp), hfreed.gone 1 (by simp), hfrees⟩

end SmtpMta.Server.LineRings
