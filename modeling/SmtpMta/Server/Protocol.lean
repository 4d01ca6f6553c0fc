import SmtpMta.Server.Lines

/-! What a session is for, without its memory: the partial command, the phase,
and the envelope as lists of texts. Every call on the linked session does what
the same call does here. -/
namespace SmtpMta.Server.Protocol
open Library.CString Library.Regex Common.ListHead Common.StringUtils Smtp Lines

structure Dialogue where
  /-- The pieces of the command that has not ended yet. -/
  held : List Bytes
  state : SmtpState
  sender : Option Bytes
  recipients : List Bytes
  lines : List Bytes

def fresh (state : SmtpState) : Dialogue := ⟨[], state, none, [], []⟩

/-- The return value, the text put into the reply buffer if any, and the rest. -/
abbrev Answer := Int × Option String × Dialogue

inductive Verb where
  | ehlo
  | mail
  | rcpt
  | data
  | rset
  | quit
  | vrfy
  | unknown
deriving DecidableEq

/-- The first branch that a trimmed command starts like. -/
def verbOf (command : Bytes) : Verb :=
  let starts (verb : String) : Bool := strstartswith command (ascii verb) true
  if starts "EHLO" || starts "HELO" then .ehlo
  else if starts "MAIL" then .mail
  else if starts "RCPT" then .rcpt
  else if starts "DATA" then .data
  else if starts "RSET" then .rset
  else if starts "QUIT" then .quit
  else if starts "VRFY" || starts "VERIFY" then .vrfy
  else .unknown

/-- The text of the group when the pattern matches. -/
def address (p : Pattern Byte) (command : Bytes) : Option Bytes :=
  (p.exec (cstr command)).map fun cut => ((cstr command).drop cut.1).take (cut.2 - cut.1)

def mail (alloc : Bool) (command : Bytes) (d : Dialogue) : Option Answer :=
  match address mailPattern command with
  | none => some (0, some "500\r\n", d)
  | some sender =>
      if d.state ≠ .established then some (0, some "503\r\n", d)
      else if alloc then
        some (0, some "250 OK\r\n", { d with state := .mailRcpt, sender := some sender })
      else none

def rcpt (alloc : Bool) (command : Bytes) (d : Dialogue) : Option Answer :=
  match address rcptPattern command with
  | none => some (0, some "500\r\n", d)
  | some recipient =>
      if d.state ≠ .mailRcpt then some (0, some "503\r\n", d)
      else if alloc then
        some (0, some "250\r\n", { d with recipients := insertSecond recipient d.recipients })
      else none

def data (command : Bytes) (d : Dialogue) : Answer :=
  if ¬(anyCase "DATA").rmatch (cstr command) then (0, some "500\r\n", d)
  else if d.state ≠ .mailRcpt then (0, some "503\r\n", d)
  else (0, some "354\r\n", { d with state := .mailData })

def readData (alloc : Bool) (command : Bytes) (d : Dialogue) : Answer :=
  if cstr command = ascii "." then (0, some "250 OK\r\n", fresh .established)
  else if alloc then (0, none, { d with lines := insertSecond (cstr command) d.lines })
  else (0, some "500\r\n", d)

def rset (command : Bytes) (d : Dialogue) : Answer :=
  if ¬(anyCase "RSET").rmatch (cstr command) then (0, some "500\r\n", d)
  else (0, some "250 OK\r\n", fresh (if d.state = .initial then .initial else .established))

def quit (command : Bytes) (d : Dialogue) : Answer :=
  if ¬(anyCase "QUIT").rmatch (cstr command) then (-1, some "500\r\n", d)
  else (-1, some "221 OK\r\n", fresh .initial)

/-- One command; `alloc` says whether an allocation succeeds. -/
def answer (alloc : Bool) (command : Bytes) (d : Dialogue) : Option Answer :=
  let d := { d with held := [] }
  if d.state = .mailData then some (readData alloc command d)
  else
    let command := strtrim command
    match verbOf command with
    | .ehlo => some (0, some "250\r\n", fresh .established)
    | .mail => mail alloc command d
    | .rcpt => rcpt alloc command d
    | .data => some (data command d)
    | .rset => some (rset command d)
    | .quit => some (quit command d)
    | .vrfy => some (0, some "502 Not implemented\r\n", d)
    | .unknown => some (0, some "500 Unknown command\r\n", d)

def allocations (command : Bytes) (d : Dialogue) : Nat :=
  if d.state = .mailData then if cstr command = ascii "." then 0 else 1
  else
    let command := strtrim command
    match verbOf command with
    | .mail => if (address mailPattern command).isSome ∧ d.state = .established then 1 else 0
    | .rcpt => if (address rcptPattern command).isSome ∧ d.state = .mailRcpt then 1 else 0
    | _ => 0

theorem answer_succeeds (command : Bytes) (d : Dialogue) :
    ∃ ret reply d', answer true command d = some (ret, reply, d') := by
  have hmail (command : Bytes) (d : Dialogue) : (mail true command d).isSome := by
    unfold mail
    cases address mailPattern command with
    | none => rfl
    | some sender => dsimp only; split <;> rfl
  have hrcpt (command : Bytes) (d : Dialogue) : (rcpt true command d).isSome := by
    unfold rcpt
    cases address rcptPattern command with
    | none => rfl
    | some recipient => dsimp only; split <;> rfl
  have hsome : (answer true command d).isSome := by
    unfold answer
    dsimp only
    split
    · rfl
    · cases verbOf (strtrim command) <;> first | rfl | exact hmail _ _ | exact hrcpt _ _
  obtain ⟨⟨ret, reply, d'⟩, hanswer⟩ := Option.isSome_iff_exists.mp hsome
  exact ⟨ret, reply, d', hanswer⟩

theorem answer_cstr (alloc : Bool) (command : Bytes) (d : Dialogue) :
    answer alloc (cstr command) d = answer alloc command d := by
  simp [answer, readData, strtrim]

/-- The whole line is the DATA command. -/
def IsData (command : Bytes) : Prop :=
  verbOf (strtrim command) = .data ∧ (anyCase "DATA").rmatch (cstr (strtrim command)) = true

/-- All that a command can do to a dialogue in which no partial command is held. -/
inductive Outcome (alloc : Bool) (command : Bytes) (d : Dialogue) :
    Int → Option String → Dialogue → Prop where
  | ended : d.state = .mailData → cstr command = ascii "." →
      Outcome alloc command d 0 (some "250 OK\r\n") (fresh .established)
  | stored : d.state = .mailData → cstr command ≠ ascii "." → alloc = true →
      Outcome alloc command d 0 none { d with lines := insertSecond (cstr command) d.lines }
  | dropped : d.state = .mailData → cstr command ≠ ascii "." → alloc = false →
      Outcome alloc command d 0 (some "500\r\n") d
  | reset {verb : Verb} {ret : Int} {text : String} {state : SmtpState} : d.state ≠ .mailData →
      verbOf (strtrim command) = verb → verb ∉ [.mail, .rcpt, .data] →
      state ∈ [.initial, .established] → ¬ascii "354" <+: ascii text →
      Outcome alloc command d ret (some text) (fresh state)
  | sender {text : Bytes} : d.state = .established → verbOf (strtrim command) = .mail →
      address mailPattern (strtrim command) = some text → alloc = true →
      Outcome alloc command d 0 (some "250 OK\r\n")
        { d with state := .mailRcpt, sender := some text }
  | recipient {text : Bytes} : d.state = .mailRcpt → verbOf (strtrim command) = .rcpt →
      address rcptPattern (strtrim command) = some text → alloc = true →
      Outcome alloc command d 0 (some "250\r\n")
        { d with recipients := insertSecond text d.recipients }
  | started : d.state = .mailRcpt → IsData command →
      Outcome alloc command d 0 (some "354\r\n") { d with state := .mailData }
  | refused {ret : Int} {text : String} : d.state ≠ .mailData →
      ¬(d.state = .mailRcpt ∧ IsData command) → ¬ascii "250" <+: ascii text →
      ¬ascii "354" <+: ascii text → Outcome alloc command d ret (some text) d

section Outcomes
variable {alloc : Bool} {command : Bytes} {d : Dialogue}

theorem outcome_refused (hstate : d.state ≠ .mailData) (hverb : verbOf (strtrim command) ≠ .data)
    {ret : Int} {text : String} (h250 : ¬ascii "250" <+: ascii text)
    (h354 : ¬ascii "354" <+: ascii text) : Outcome alloc command d ret (some text) d :=
  .refused hstate (fun h => hverb h.2.1) h250 h354

theorem readData_outcome (hstate : d.state = .mailData) :
    Outcome alloc command d (readData alloc command d).1 (readData alloc command d).2.1
      (readData alloc command d).2.2 := by
  unfold readData
  split
  · exact .ended hstate ‹_›
  split
  · exact .stored hstate ‹_› ‹_›
  · exact .dropped hstate ‹_› (by simpa using ‹¬alloc = true›)

theorem mail_outcome (hstate : d.state ≠ .mailData) (hverb : verbOf (strtrim command) = .mail)
    {a : Answer} (h : mail alloc (strtrim command) d = some a) :
    Outcome alloc command d a.1 a.2.1 a.2.2 := by
  have hdata : verbOf (strtrim command) ≠ .data := by simp [hverb]
  unfold mail at h
  cases haddress : address mailPattern (strtrim command) with
  | none =>
    rw [haddress, Option.some_inj] at h
    exact h ▸ outcome_refused hstate hdata (by decide) (by decide)
  | some text =>
    simp only [haddress] at h
    split at h
    · exact Option.some_inj.mp h ▸ outcome_refused hstate hdata (by decide) (by decide)
    rename_i hestablished
    split at h
    · exact Option.some_inj.mp h ▸ .sender (not_not.mp hestablished) hverb haddress ‹_›
    · cases h

theorem rcpt_outcome (hstate : d.state ≠ .mailData) (hverb : verbOf (strtrim command) = .rcpt)
    {a : Answer} (h : rcpt alloc (strtrim command) d = some a) :
    Outcome alloc command d a.1 a.2.1 a.2.2 := by
  have hdata : verbOf (strtrim command) ≠ .data := by simp [hverb]
  unfold rcpt at h
  cases haddress : address rcptPattern (strtrim command) with
  | none =>
    rw [haddress, Option.some_inj] at h
    exact h ▸ outcome_refused hstate hdata (by decide) (by decide)
  | some text =>
    simp only [haddress] at h
    split at h
    · exact Option.some_inj.mp h ▸ outcome_refused hstate hdata (by decide) (by decide)
    rename_i hrcpt
    split at h
    · exact Option.some_inj.mp h ▸ .recipient (not_not.mp hrcpt) hverb haddress ‹_›
    · cases h

theorem data_outcome (hstate : d.state ≠ .mailData) (hverb : verbOf (strtrim command) = .data) :
    Outcome alloc command d (data (strtrim command) d).1 (data (strtrim command) d).2.1
      (data (strtrim command) d).2.2 := by
  unfold data
  split
  · rename_i hmatch
    exact .refused hstate (fun h => hmatch h.2.2) (by decide) (by decide)
  rename_i hmatch
  split
  · rename_i hrcpt
    exact .refused hstate (fun h => hrcpt h.1) (by decide) (by decide)
  · rename_i hrcpt
    exact .started (not_not.mp hrcpt) ⟨hverb, not_not.mp hmatch⟩

theorem rset_outcome (hstate : d.state ≠ .mailData) (hverb : verbOf (strtrim command) = .rset) :
    Outcome alloc command d (rset (strtrim command) d).1 (rset (strtrim command) d).2.1
      (rset (strtrim command) d).2.2 := by
  unfold rset
  split
  · exact outcome_refused hstate (by simp [hverb]) (by decide) (by decide)
  · exact .reset hstate hverb (by decide) (by split <;> decide) (by decide)

theorem quit_outcome (hstate : d.state ≠ .mailData) (hverb : verbOf (strtrim command) = .quit) :
    Outcome alloc command d (quit (strtrim command) d).1 (quit (strtrim command) d).2.1
      (quit (strtrim command) d).2.2 := by
  unfold quit
  split
  · exact outcome_refused hstate (by simp [hverb]) (by decide) (by decide)
  · exact .reset hstate hverb (by decide) (by decide) (by decide)

theorem answer_outcome {ret : Int} {reply : Option String} {d' : Dialogue} (hheld : d.held = [])
    (h : answer alloc command d = some (ret, reply, d')) :
    Outcome alloc command d ret reply d' := by
  have hd : { d with held := [] } = d := by
    cases d
    simpa using hheld.symm
  simp only [answer, hd] at h
  by_cases hstate : d.state = .mailData
  · rw [if_pos hstate, Option.some_inj] at h
    have hread : Outcome alloc command d _ _ _ := readData_outcome hstate
    rwa [h] at hread
  rw [if_neg hstate] at h
  cases hverb : verbOf (strtrim command) with
  | ehlo =>
    rw [hverb, Option.some_inj] at h
    cases h
    exact .reset hstate hverb (by decide) (by decide) (by decide)
  | mail =>
    rw [hverb] at h
    exact mail_outcome hstate hverb h
  | rcpt =>
    rw [hverb] at h
    exact rcpt_outcome hstate hverb h
  | data =>
    rw [hverb, Option.some_inj] at h
    have hdata : Outcome alloc command d _ _ _ := data_outcome hstate hverb
    rwa [h] at hdata
  | rset =>
    rw [hverb, Option.some_inj] at h
    have hrset : Outcome alloc command d _ _ _ := rset_outcome hstate hverb
    rwa [h] at hrset
  | quit =>
    rw [hverb, Option.some_inj] at h
    have hquit : Outcome alloc command d _ _ _ := quit_outcome hstate hverb
    rwa [h] at hquit
  | vrfy =>
    rw [hverb, Option.some_inj] at h
    cases h
    exact outcome_refused hstate (by simp [hverb]) (by decide) (by decide)
  | unknown =>
    rw [hverb, Option.some_inj] at h
    cases h
    exact outcome_refused hstate (by simp [hverb]) (by decide) (by decide)

end Outcomes

theorem answer_held {alloc : Bool} {command : Bytes} {d d' : Dialogue} {ret : Int}
    {reply : Option String} (h : answer alloc command d = some (ret, reply, d')) :
    d'.held = [] := by
  have houtcome : Outcome alloc command { d with held := [] } ret reply d' := answer_outcome rfl h
  cases houtcome <;> rfl

theorem answer_continues {alloc : Bool} {command : Bytes} {d d' : Dialogue} {ret : Int}
    {reply : Option String} (h : answer alloc command d = some (ret, reply, d'))
    (hverb : verbOf (strtrim command) ≠ .quit) : ret = 0 := by
  have hread (d : Dialogue) : (readData alloc command d).1 = 0 := by
    unfold readData
    split_ifs <;> rfl
  have hmail (d : Dialogue) (a : Answer) (h : mail alloc (strtrim command) d = some a) : a.1 = 0 := by
    unfold mail at h
    split at h
    · cases h; rfl
    · split_ifs at h <;> cases h <;> rfl
  have hrcpt (d : Dialogue) (a : Answer) (h : rcpt alloc (strtrim command) d = some a) : a.1 = 0 := by
    unfold rcpt at h
    split at h
    · cases h; rfl
    · split_ifs at h <;> cases h <;> rfl
  have hdata (d : Dialogue) : (data (strtrim command) d).1 = 0 := by
    unfold data
    split_ifs <;> rfl
  have hrset (d : Dialogue) : (rset (strtrim command) d).1 = 0 := by
    unfold rset
    split_ifs <;> rfl
  unfold answer at h
  dsimp only at h
  split at h
  · rw [Option.some_inj] at h
    simpa [h] using hread { d with held := [] }
  · cases hv : verbOf (strtrim command) with
    | quit => exact absurd hv hverb
    | mail =>
      rw [hv] at h
      exact hmail _ _ h
    | rcpt =>
      rw [hv] at h
      exact hrcpt _ _ h
    | data =>
      rw [hv, Option.some_inj] at h
      simpa [h] using hdata { d with held := [] }
    | rset =>
      rw [hv, Option.some_inj] at h
      simpa [h] using hrset { d with held := [] }
    | ehlo | vrfy | unknown =>
      rw [hv] at h
      cases h
      rfl

/-- The linked session holds a dialogue, each list in lines of its own. -/
structure Fits (w : World) (d : Dialogue) (bs rs ls : List Addr) : Prop where
  buffer : Holds w.mem w.session.buffer bs d.held
  recipients : Holds w.mem w.session.envelope.recipients rs d.recipients
  data : Holds w.mem w.session.envelope.data ls d.lines
  size : w.session.bufferSize = d.held.flatten.length
  sender : w.session.envelope.mailFrom = d.sender
  state : w.session.state = d.state
  nodup : (bs ++ (rs ++ ls)).Nodup
  below : ∀ a ∈ bs ++ (rs ++ ls), a < w.mem.brk

def Represents (w : World) (d : Dialogue) : Prop :=
  ∃ bs rs ls, Fits w d bs rs ls

theorem Fits.frame {w w' : World} {d : Dialogue} {bs rs ls : List Addr} (h : Fits w d bs rs ls)
    (hsession : w'.session = w.session) (hsame : ∀ a ∈ bs ++ (rs ++ ls), Same w.mem w'.mem a)
    (hbrk : w.mem.brk ≤ w'.mem.brk) : Fits w' d bs rs ls := by
  constructor
  case buffer =>
    rw [hsession]
    exact h.buffer.frame fun a ha => hsame a (by simp [ha])
  case recipients =>
    rw [hsession]
    exact h.recipients.frame fun a ha => hsame a (by simp [ha])
  case data =>
    rw [hsession]
    exact h.data.frame fun a ha => hsame a (by simp [ha])
  case size => rw [hsession, h.size]
  case sender => rw [hsession, h.sender]
  case state => rw [hsession, h.state]
  case nodup => exact h.nodup
  case below => exact fun a ha => (h.below a ha).trans_le hbrk

theorem Fits.reply {w : World} {d : Dialogue} {bs rs ls : List Addr} (h : Fits w d bs rs ls)
    (reply : Bytes) : Fits { w with reply } d bs rs ls :=
  h.frame rfl (fun a _ => .refl w.mem a) le_rfl

theorem Represents.reply {w : World} {d : Dialogue} (h : Represents w d) (reply : Bytes) :
    Represents { w with reply } d := by
  obtain ⟨bs, rs, ls, hfits⟩ := h
  exact ⟨bs, rs, ls, hfits.reply reply⟩

/-- What a call leaves alone beside the session. -/
structure Kept (w w' : World) : Prop where
  oom : w'.mem.oom = w.mem.oom
  dirs : w'.dirs = w.dirs

theorem Kept.trans {w₁ w₂ w₃ : World} (h : Kept w₁ w₂) (h' : Kept w₂ w₃) : Kept w₁ w₃ :=
  ⟨h'.oom.trans h.oom, h'.dirs.trans h.dirs⟩

/-- The lines of the session, and the dialogue they hold. -/
def Owns (w : World) (d : Dialogue) (ms : List Addr) : Prop :=
  ∃ bs rs ls, ms = bs ++ (rs ++ ls) ∧ Fits w d bs rs ls

theorem Fits.owns {w : World} {d : Dialogue} {bs rs ls : List Addr} (h : Fits w d bs rs ls) :
    Owns w d (bs ++ (rs ++ ls)) :=
  ⟨bs, rs, ls, rfl, h⟩

theorem Owns.represents {w : World} {d : Dialogue} {ms : List Addr} (h : Owns w d ms) :
    Represents w d := by
  obtain ⟨bs, rs, ls, -, hfits⟩ := h
  exact ⟨bs, rs, ls, hfits⟩

theorem Owns.frame {w w' : World} {d : Dialogue} {ms : List Addr} (h : Owns w d ms)
    (hsession : w'.session = w.session) (hsame : ∀ a ∈ ms, Same w.mem w'.mem a)
    (hbrk : w.mem.brk ≤ w'.mem.brk) : Owns w' d ms := by
  obtain ⟨bs, rs, ls, rfl, hfits⟩ := h
  exact (hfits.frame hsession hsame hbrk).owns

theorem Owns.below {w : World} {d : Dialogue} {ms : List Addr} (h : Owns w d ms) :
    ∀ a ∈ ms, a < w.mem.brk := by
  obtain ⟨bs, rs, ls, rfl, hfits⟩ := h
  exact hfits.below

/-- A call makes `n` allocations, and works only on lines of its session and on
new ones. -/
structure Confined (w w' : World) (ms ms' : List Addr) (n : Nat) : Prop where
  same : ∀ a < w.mem.brk, a ∉ ms → Same w.mem w'.mem a
  members : ∀ a ∈ ms', a ∈ ms ∨ w.mem.brk ≤ a
  brk : w'.mem.brk = w.mem.brk + n

theorem Confined.refl (w : World) (ms : List Addr) : Confined w w ms ms 0 :=
  ⟨fun a _ _ => .refl w.mem a, fun _ ha => .inl ha, rfl⟩

theorem Confined.trans {w₁ w₂ w₃ : World} {ms₁ ms₂ ms₃ : List Addr} {n n' : Nat}
    (h : Confined w₁ w₂ ms₁ ms₂ n) (h' : Confined w₂ w₃ ms₂ ms₃ n') :
    Confined w₁ w₃ ms₁ ms₃ (n + n') := by
  have hle : w₁.mem.brk ≤ w₂.mem.brk := by rw [h.brk]; exact Nat.le_add_right ..
  refine ⟨fun a ha hnew => ?_, fun a ha => ?_, by rw [h'.brk, h.brk, Nat.add_assoc]⟩
  · have hstill : a ∉ ms₂ := fun hmem => (h.members a hmem).elim hnew (Nat.not_le.mpr ha)
    exact (h.same a ha hnew).trans (h'.same a (ha.trans_le hle) hstill)
  · rcases h'.members a ha with hmem | hfresh
    · exact h.members a hmem
    · exact .inr (hle.trans hfresh)

theorem confined_of_freed {w w' : World} {members ms ms' : List Addr}
    (h : Freed w.mem w'.mem members) (hfreed : ∀ a ∈ members, a ∈ ms) (hleft : ∀ a ∈ ms', a ∈ ms) :
    Confined w w' ms ms' 0 :=
  ⟨fun a _ ha => h.same a fun hmem => ha (hfreed a hmem), fun a ha => .inl (hleft a ha), h.brk⟩

section Reset
variable {w : World} {d : Dialogue} {bs rs ls : List Addr}

theorem Fits.length_le (h : Fits w d bs rs ls) :
    bs.length ≤ w.mem.brk ∧ rs.length ≤ w.mem.brk ∧ ls.length ≤ w.mem.brk := by
  have hlen := length_le_of_forall_lt h.nodup h.below
  simp only [List.length_append] at hlen
  omega

theorem Fits.bufferReset (h : Fits w d bs rs ls) :
    ∃ w', Smtp.bufferReset w = some w' ∧ Fits w' { d with held := [] } [] rs ls ∧ Kept w w' ∧
      Confined w w' (bs ++ (rs ++ ls)) (rs ++ ls) 0 ∧ w'.reply = w.reply := by
  obtain ⟨mem, hfree, hfreed⟩ := freeIfAny_freed h.buffer h.length_le.1
  obtain ⟨-, hnodup, hdisjoint⟩ := List.nodup_append'.mp h.nodup
  have hsame (a : Addr) (ha : a ∈ rs ++ ls) : Same w.mem mem a :=
    hfreed.same a fun hb => hdisjoint hb ha
  have hmembers (a : Addr) (ha : a ∈ bs) : a ∈ bs ++ (rs ++ ls) := by simp [ha]
  have hleft (a : Addr) (ha : a ∈ rs ++ ls) : a ∈ bs ++ (rs ++ ls) := List.mem_append_right bs ha
  refine ⟨{ w with mem, session := { w.session with buffer := none, bufferSize := 0 } },
    by simp [Smtp.bufferReset, hfree], ?_, ⟨hfreed.oom, rfl⟩,
    confined_of_freed hfreed hmembers hleft, rfl⟩
  constructor
  case buffer => exact holds_nil mem
  case recipients => exact h.recipients.frame fun a ha => hsame a (by simp [ha])
  case data => exact h.data.frame fun a ha => hsame a (by simp [ha])
  case size => rfl
  case sender => exact h.sender
  case state => exact h.state
  case nodup => exact hnodup
  case below =>
    intro a ha
    rw [hfreed.brk]
    exact h.below a (List.mem_append.mpr (.inr ha))

theorem fits_fresh {w : World} {state : SmtpState}
    (h : w.session = ⟨none, 0, state, ⟨none, none, none⟩⟩) : Fits w (fresh state) [] [] [] := by
  constructor <;> simp [h, fresh]

theorem Fits.sessionReset (h : Fits w d bs rs ls) (state : SmtpState) :
    ∃ w', smtpSessionReset w state = some w' ∧ Owns w' (fresh state) [] ∧ Kept w w' ∧
      Confined w w' (bs ++ (rs ++ ls)) [] 0 ∧ w'.reply = w.reply := by
  obtain ⟨w₁, hreset, hfits, hkept, hconfined, hreply⟩ := h.bufferReset
  obtain ⟨mem₁, hfree₁, hfreed₁⟩ := freeIfAny_freed hfits.recipients hfits.length_le.2.1
  have hnodup : (rs ++ ls).Nodup := hfits.nodup
  obtain ⟨-, -, hdisjoint⟩ := List.nodup_append'.mp hnodup
  have hdata : Holds mem₁ w₁.session.envelope.data ls d.lines :=
    hfits.data.frame fun a ha => hfreed₁.same a fun hr => hdisjoint hr ha
  obtain ⟨mem₂, hfree₂, hfreed₂⟩ := freeIfAny_freed hdata (hfreed₁.brk ▸ hfits.length_le.2.2)
  let w₂ : World := { w₁ with mem := mem₂, session :=
    { w₁.session with state, envelope := ⟨none, none, none⟩ } }
  have hfreed : Freed w₁.mem w₂.mem (rs ++ ls) := hfreed₁.trans hfreed₂
  refine ⟨w₂, by simp [smtpSessionReset, hreset, envelopeFree, hfree₁, hfree₂, w₂], ?_,
    hkept.trans ⟨hfreed.oom, rfl⟩,
    hconfined.trans (confined_of_freed hfreed (fun _ ha => ha) fun _ ha => by simp at ha), hreply⟩
  refine ⟨[], [], [], rfl, fits_fresh ?_⟩
  simp only [w₂, Session.mk.injEq, and_true]
  exact ⟨hfits.buffer.head, by simp [hfits.size]⟩

end Reset

theorem cstr_drop {block : Bytes} {n : Nat} (h : n ≤ (cstr block).length) :
    cstr (block.drop n) = (cstr block).drop n := by
  induction n generalizing block with
  | zero => rfl
  | succ n ih =>
    cases block with
    | nil => simp [cstr] at h
    | cons b block =>
      by_cases hb : b = nul
      · simp [cstr, hb] at h
      · have hcons : cstr (b :: block) = b :: cstr block := by simp [cstr, hb]
        rw [hcons] at h ⊢
        exact ih (by simpa using h)

theorem take_cstr_group {p : Pattern Byte} {command : Bytes} {so eo : Nat}
    (h : p.exec (cstr command) = some (so, eo)) :
    (cstr (command.drop so)).take (eo - so) = ((cstr command).drop so).take (eo - so) ∧
      (((cstr command).drop so).take (eo - so)).length = eo - so := by
  obtain ⟨hle, hlen, -⟩ := Pattern.matchesAt_of_exec h
  refine ⟨by rw [cstr_drop (hle.trans hlen)], ?_⟩
  rw [List.length_take, List.length_drop]
  omega

def replied (len : Nat) (reply : Option String) (old : Bytes) : Bytes :=
  reply.elim old fun text => (ascii text).take (len - 1)

/-- The call on the linked session ends as the answer says. -/
def Follows (len : Nat) (w : World) (result : Option (Int × World)) (answer : Option Answer) :
    Prop :=
  match answer with
  | none => result = none
  | some (ret, reply, d) => ∃ w', result = some (ret, w') ∧ Represents w' d ∧ Kept w w' ∧
      w'.reply = replied len reply w.reply

/-- The same, with the lines it works on. -/
def FollowsWithin (len : Nat) (w : World) (ms : List Addr) (n : Nat)
    (result : Option (Int × World)) (answer : Option Answer) : Prop :=
  match answer with
  | none => result = none
  | some (ret, reply, d) => ∃ w' ms', result = some (ret, w') ∧ Owns w' d ms' ∧ Kept w w' ∧
      Confined w w' ms ms' n ∧ w'.reply = replied len reply w.reply

theorem FollowsWithin.follows {len n : Nat} {w : World} {ms : List Addr}
    {result : Option (Int × World)} {answer : Option Answer}
    (h : FollowsWithin len w ms n result answer) : Follows len w result answer := by
  unfold FollowsWithin at h
  unfold Follows
  split
  · exact h
  · obtain ⟨w', ms', hresult, howns, hkept, -, hreply⟩ := h
    exact ⟨w', hresult, howns.represents, hkept, hreply⟩

theorem FollowsWithin.after {len n : Nat} {w w₁ : World} {ms ms₁ : List Addr}
    {result : Option (Int × World)} {answer : Option Answer} (hkept : Kept w w₁)
    (hconfined : Confined w w₁ ms ms₁ 0) (hreply : w₁.reply = w.reply)
    (h : FollowsWithin len w₁ ms₁ n result answer) : FollowsWithin len w ms n result answer := by
  unfold FollowsWithin at h ⊢
  split
  · exact h
  · obtain ⟨w', ms', hresult, howns, hkept', hconfined', hreply'⟩ := h
    have hboth : Confined w w' ms ms' n := by simpa using hconfined.trans hconfined'
    exact ⟨w', ms', hresult, howns, hkept.trans hkept', hboth, hreply ▸ hreply'⟩

section Verbs
variable {w : World} {d : Dialogue} {ms : List Addr} (len : Nat)

theorem Represents.state_eq (h : Represents w d) : w.session.state = d.state := by
  obtain ⟨bs, rs, ls, hfits⟩ := h
  exact hfits.state

theorem Owns.state_eq (h : Owns w d ms) : w.session.state = d.state :=
  h.represents.state_eq

theorem Represents.recipients_eq_none_iff (h : Represents w d) :
    w.session.envelope.recipients = none ↔ d.recipients = [] := by
  obtain ⟨bs, rs, ls, hfits⟩ := h
  exact hfits.recipients.lines_eq_none_iff

theorem Owns.follows_reply (h : Owns w d ms) (ret : Int) (text : String) :
    FollowsWithin len w ms 0 (some (ret, snprintf w len text)) (some (ret, some text, d)) := by
  obtain ⟨bs, rs, ls, rfl, hfits⟩ := h
  have hfits' : Fits (snprintf w len text) d bs rs ls := hfits.reply _
  have hconfined : Confined w (snprintf w len text) (bs ++ (rs ++ ls)) (bs ++ (rs ++ ls)) 0 :=
    ⟨fun a _ _ => .refl w.mem a, fun _ ha => .inl ha, rfl⟩
  exact ⟨_, _, rfl, hfits'.owns, ⟨rfl, rfl⟩, hconfined, rfl⟩

theorem Owns.follows_reset (h : Owns w d ms) (state : SmtpState) (ret : Int) (text : String) :
    FollowsWithin len w ms 0
      ((smtpSessionReset w state).bind fun w => some (ret, snprintf w len text))
      (some (ret, some text, fresh state)) := by
  obtain ⟨bs, rs, ls, rfl, hfits⟩ := h
  obtain ⟨w', hreset, howns, hkept, hconfined, hreply⟩ := hfits.sessionReset state
  obtain ⟨w'', ms', hw'', howns', hkept', hconfined', hreply'⟩ := howns.follows_reply len ret text
  exact ⟨w'', ms', by simpa [hreset] using hw'', howns', hkept.trans hkept',
    hconfined.trans hconfined', hreply'⟩

theorem Fits.malloc {bs rs ls : List Addr} (h : Fits w d bs rs ls) :
    Fits { w with mem := { w.mem with brk := w.mem.brk + 1 } } d bs rs ls ∧
      Confined w { w with mem := { w.mem with brk := w.mem.brk + 1 } } (bs ++ (rs ++ ls))
        (bs ++ (rs ++ ls)) 1 := by
  refine ⟨?_, fun a _ _ => ⟨rfl, rfl⟩, fun _ ha => .inl ha, rfl⟩
  exact h.frame rfl (fun a _ => ⟨rfl, rfl⟩) (Nat.le_succ _)

theorem Owns.mail (h : Owns w d ms) (command : Bytes) :
    FollowsWithin len w ms
      (if (address mailPattern command).isSome ∧ d.state = .established then 1 else 0)
      (smtpMail command len w) (mail (!w.mem.oom w.mem.brk) command d) := by
  unfold smtpMail Protocol.mail address
  cases hexec : mailPattern.exec (cstr command) with
  | none => simpa using h.follows_reply len 0 "500\r\n"
  | some cut =>
    obtain ⟨so, eo⟩ := cut
    simp only [Option.map_some, h.state_eq]
    by_cases hstate : d.state = .established
    · simp only [hstate, ne_eq, not_true_eq_false, if_false, Option.isSome_some, and_self, if_true]
      cases hoom : w.mem.oom w.mem.brk with
      | true => simp [Memory.malloc, hoom, FollowsWithin]
      | false =>
        obtain ⟨bs, rs, ls, rfl, hfits⟩ := h
        obtain ⟨htake, hlength⟩ := take_cstr_group hexec
        obtain ⟨hfits', hconfined⟩ := hfits.malloc
        simp only [Memory.malloc, hoom, Bool.false_eq_true, if_false, Option.bind_eq_bind,
          Option.bind_some, Bool.not_false, if_true]
        refine ⟨_, _, rfl, ⟨bs, rs, ls, rfl, ?_⟩, ⟨rfl, rfl⟩,
          ⟨hconfined.same, hconfined.members, hconfined.brk⟩, rfl⟩
        constructor
        case buffer => exact hfits'.buffer
        case recipients => exact hfits'.recipients
        case data => exact hfits'.data
        case size => exact hfits.size
        case sender => simp [snprintf, strncpy, htake, hlength]
        case state => rfl
        case nodup => exact hfits.nodup
        case below => exact hfits'.below
    · simp only [ne_eq, hstate, not_false_eq_true, if_true, and_false, if_false]
      exact h.follows_reply len 0 "503\r\n"

theorem Fits.store {bs rs ls : List Addr} (h : Fits w d bs rs ls) (data : Bytes) (n : Nat)
    {lines : Option Addr} {ms : List Addr} {texts : List Bytes}
    (hlines : Holds w.mem lines ms texts) (hms : ∀ a ∈ ms, a ∈ bs ++ (rs ++ ls)) :
    ∃ mem mem' lines', fillLine { w.mem with brk := w.mem.brk + 1 } w.mem.brk data n = some mem ∧
      storeLine mem lines w.mem.brk = some (mem', lines') ∧
      Holds mem' lines' (insertSecond w.mem.brk ms) (insertSecond ((cstr data).take n) texts) ∧
      (∀ a < w.mem.brk, a ∉ ms → Same w.mem mem' a) ∧ mem'.brk = w.mem.brk + 1 ∧
        mem'.oom = w.mem.oom := by
  obtain ⟨mem, hfill, hline, hbrk, hoom, hsame⟩ :=
    fillLine_holds { w.mem with brk := w.mem.brk + 1 } w.mem.brk data n
  have hold (a : Addr) (ha : a < w.mem.brk) : Same w.mem mem a := hsame a ha.ne
  have hnew : w.mem.brk ∉ ms := fun hmem => (h.below _ (hms _ hmem)).ne rfl
  have hlines' : Holds mem lines ms texts :=
    hlines.frame fun a ha => hold a (h.below a (hms a ha))
  obtain ⟨mem', lines', hstore, hstored, hbrk', hoom', hsame'⟩ := storeLine_holds hlines' hline hnew
  refine ⟨mem, mem', lines', hfill, hstore, hstored, fun a ha hne => ?_, hbrk'.trans hbrk,
    hoom'.trans hoom⟩
  exact (hold a ha).trans (hsame' a ha.ne hne)

theorem Fits.members_stored {bs rs ls xs : List Addr} (h : Fits w d bs rs ls)
    (hperm : xs.Perm (w.mem.brk :: (bs ++ (rs ++ ls)))) :
    xs.Nodup ∧ (∀ a ∈ xs, a < w.mem.brk + 1) ∧ ∀ a ∈ xs, a ∈ bs ++ (rs ++ ls) ∨ w.mem.brk ≤ a := by
  refine ⟨hperm.nodup_iff.mpr (List.nodup_cons.mpr ⟨fun hmem => (h.below _ hmem).ne rfl, h.nodup⟩),
    fun a ha => ?_, fun a ha => ?_⟩
  · rcases List.mem_cons.mp (hperm.mem_iff.mp ha) with rfl | ha
    · exact Nat.lt_succ_self _
    · exact (h.below a ha).trans (Nat.lt_succ_self _)
  · rcases List.mem_cons.mp (hperm.mem_iff.mp ha) with rfl | ha
    · exact .inr le_rfl
    · exact .inl ha

theorem perm_store_middle (x : Addr) (bs rs ls : List Addr) :
    (bs ++ (insertSecond x rs ++ ls)).Perm (x :: (bs ++ (rs ++ ls))) :=
  calc (bs ++ (insertSecond x rs ++ ls)).Perm (bs ++ (x :: rs ++ ls)) :=
        .append_left bs (.append_right ls (insertSecond_perm x rs))
    _ |>.Perm (x :: (bs ++ (rs ++ ls))) := List.perm_middle

theorem perm_store_last (x : Addr) (bs rs ls : List Addr) :
    (bs ++ (rs ++ insertSecond x ls)).Perm (x :: (bs ++ (rs ++ ls))) := by
  have hlast : (rs ++ insertSecond x ls).Perm (x :: (rs ++ ls)) :=
    (insertSecond_perm x ls).append_left rs |>.trans List.perm_middle
  exact (hlast.append_left bs).trans List.perm_middle

theorem Owns.rcpt (h : Owns w d ms) (command : Bytes) :
    FollowsWithin len w ms
      (if (address rcptPattern command).isSome ∧ d.state = .mailRcpt then 1 else 0)
      (smtpRcpt command len w) (rcpt (!w.mem.oom w.mem.brk) command d) := by
  unfold smtpRcpt Protocol.rcpt address
  cases hexec : rcptPattern.exec (cstr command) with
  | none => simpa using h.follows_reply len 0 "500\r\n"
  | some cut =>
    obtain ⟨so, eo⟩ := cut
    simp only [Option.map_some, h.state_eq]
    by_cases hstate : d.state = .mailRcpt
    · simp only [hstate, ne_eq, not_true_eq_false, if_false, Option.isSome_some, and_self, if_true]
      cases hoom : w.mem.oom w.mem.brk with
      | true => simp [Memory.malloc, hoom, FollowsWithin]
      | false =>
        obtain ⟨bs, rs, ls, rfl, hfits⟩ := h
        obtain ⟨mem, mem', lines, hfill, hstore, hstored, hsame, hbrk, hoom'⟩ :=
          hfits.store (command.drop so) (eo - so) hfits.recipients fun a ha => by simp [ha]
        rw [(take_cstr_group hexec).1] at hstored
        obtain ⟨-, hnodup, hdisjoint⟩ := List.nodup_append'.mp hfits.nodup
        have hdisjoint' := (List.nodup_append'.mp hnodup).2.2
        obtain ⟨hnodup', hbelow, hmembers⟩ :=
          hfits.members_stored (perm_store_middle w.mem.brk bs rs ls)
        simp only [Memory.malloc, hoom, Bool.false_eq_true, if_false, Option.bind_eq_bind,
          Option.bind_some, Bool.not_false, if_true, hfill, hstore]
        refine ⟨_, _, rfl, ⟨bs, insertSecond w.mem.brk rs, ls, rfl, ?_⟩, ⟨hoom', rfl⟩,
          ⟨fun a ha hnot => hsame a ha fun hr => hnot (by simp [hr]), hmembers, hbrk⟩, rfl⟩
        constructor
        case buffer =>
          exact hfits.buffer.frame fun a ha =>
            hsame a (hfits.below a (by simp [ha])) fun hr => hdisjoint ha (by simp [hr])
        case recipients => exact hstored
        case data =>
          exact hfits.data.frame fun a ha =>
            hsame a (hfits.below a (by simp [ha])) fun hr => hdisjoint' hr ha
        case size => exact hfits.size
        case sender => exact hfits.sender
        case state => rfl
        case nodup => exact hnodup'
        case below => exact fun a ha => (hbelow a ha).trans_eq hbrk.symm
    · simp only [ne_eq, hstate, not_false_eq_true, if_true, and_false, if_false]
      exact h.follows_reply len 0 "503\r\n"

theorem Owns.data (h : Owns w d ms) (command : Bytes) :
    FollowsWithin len w ms 0 (smtpData command len w) (some (data command d)) := by
  unfold smtpData Protocol.data
  split
  · exact h.follows_reply len 0 "500\r\n"
  · rw [h.state_eq]
    split
    · exact h.follows_reply len 0 "503\r\n"
    · obtain ⟨bs, rs, ls, rfl, hfits⟩ := h
      exact ⟨_, _, rfl, ⟨bs, rs, ls, rfl, hfits.buffer, hfits.recipients, hfits.data, hfits.size,
        hfits.sender, rfl, hfits.nodup, hfits.below⟩, ⟨rfl, rfl⟩,
        ⟨fun a _ _ => .refl w.mem a, fun _ ha => .inl ha, rfl⟩, rfl⟩

theorem strcmp_dot (command : Bytes) : strcmp (ascii ".") command = 0 ↔ cstr command = ascii "." := by
  have hdot : cstr (ascii ".") = ascii "." := by decide
  rw [strcmp_eq_zero, hdot]
  exact eq_comm

theorem Owns.readData (h : Owns w d ms) (command mailPath : Bytes) :
    FollowsWithin len w ms (if cstr command = ascii "." then 0 else 1)
      (smtpReadData command len mailPath w)
      (some (readData (!w.mem.oom w.mem.brk) command d)) := by
  unfold smtpReadData Protocol.readData
  by_cases hdot : cstr command = ascii "."
  · rw [if_pos ((strcmp_dot command).mpr hdot), if_pos hdot, if_pos hdot]
    have hreplied := h.follows_reply len 0 "250 OK\r\n"
    obtain ⟨w₁, ms₁, hw₁, ⟨bs, rs, ls, rfl, hfits⟩, hkept₁, hconfined₁, hreply₁⟩ := hreplied
    obtain rfl : snprintf w len "250 OK\r\n" = w₁ := by simpa using hw₁
    obtain ⟨w₂, hreset, howns, hkept₂, hconfined₂, hreply₂⟩ := hfits.sessionReset .established
    exact ⟨w₂, [], by simp [envelopeSave, hreset], howns, hkept₁.trans hkept₂,
      hconfined₁.trans hconfined₂, hreply₂.trans hreply₁⟩
  · rw [if_neg (fun hcmp => hdot ((strcmp_dot command).mp hcmp)), if_neg hdot, if_neg hdot]
    obtain ⟨bs, rs, ls, rfl, hfits⟩ := h
    cases hoom : w.mem.oom w.mem.brk with
    | true =>
      obtain ⟨hfits', hconfined⟩ := hfits.malloc
      simp only [Memory.malloc, hoom, if_true, Bool.not_true, Bool.false_eq_true, if_false]
      exact ⟨_, _, rfl, (hfits'.reply _).owns, ⟨rfl, rfl⟩,
        ⟨hconfined.same, hconfined.members, hconfined.brk⟩, rfl⟩
    | false =>
      obtain ⟨mem, mem', lines, hfill, hstore, hstored, hsame, hbrk, hoom'⟩ :=
        hfits.store command (strlen command) hfits.data fun a ha => by simp [ha]
      rw [strlen, List.take_length] at hstored
      obtain ⟨-, hnodup, hdisjoint⟩ := List.nodup_append'.mp hfits.nodup
      have hdisjoint' := (List.nodup_append'.mp hnodup).2.2
      obtain ⟨hnodup', hbelow, hmembers⟩ :=
        hfits.members_stored (perm_store_last w.mem.brk bs rs ls)
      simp only [Memory.malloc, hoom, Bool.false_eq_true, if_false, Option.bind_eq_bind,
        Option.bind_some, Bool.not_false, if_true, hfill, hstore]
      refine ⟨_, _, rfl, ⟨bs, rs, insertSecond w.mem.brk ls, rfl, ?_⟩, ⟨hoom', rfl⟩,
        ⟨fun a ha hnot => hsame a ha fun hl => hnot (by simp [hl]), hmembers, hbrk⟩, rfl⟩
      constructor
      case buffer =>
        exact hfits.buffer.frame fun a ha =>
          hsame a (hfits.below a (by simp [ha])) fun hl => hdisjoint ha (by simp [hl])
      case recipients =>
        exact hfits.recipients.frame fun a ha =>
          hsame a (hfits.below a (by simp [ha])) fun hl => hdisjoint' ha hl
      case data => exact hstored
      case size => exact hfits.size
      case sender => exact hfits.sender
      case state => exact hfits.state
      case nodup => exact hnodup'
      case below => exact fun a ha => (hbelow a ha).trans_eq hbrk.symm

theorem Owns.rset (h : Owns w d ms) (command : Bytes) :
    FollowsWithin len w ms 0 (smtpReset command len w) (some (rset command d)) := by
  unfold smtpReset Protocol.rset
  split
  · exact h.follows_reply len 0 "500\r\n"
  · rw [h.state_eq]
    exact h.follows_reset len _ 0 "250 OK\r\n"

theorem Owns.quit (h : Owns w d ms) (command : Bytes) :
    FollowsWithin len w ms 0 (smtpQuit command len w) (some (quit command d)) := by
  unfold smtpQuit Protocol.quit smtpFreeSession
  split
  · exact h.follows_reply len (-1) "500\r\n"
  · exact h.follows_reset len _ (-1) "221 OK\r\n"

end Verbs

theorem dispatch_eq {α : Type} (command : Bytes) (ehlo mail rcpt data rset quit vrfy unknown : α) :
    (if strstartswith command (ascii "EHLO") true || strstartswith command (ascii "HELO") true
      then ehlo
    else if strstartswith command (ascii "MAIL") true then mail
    else if strstartswith command (ascii "RCPT") true then rcpt
    else if strstartswith command (ascii "DATA") true then data
    else if strstartswith command (ascii "RSET") true then rset
    else if strstartswith command (ascii "QUIT") true then quit
    else if strstartswith command (ascii "VRFY") true || strstartswith command (ascii "VERIFY") true
      then vrfy
    else unknown) =
      match verbOf command with
      | .ehlo => ehlo
      | .mail => mail
      | .rcpt => rcpt
      | .data => data
      | .rset => rset
      | .quit => quit
      | .vrfy => vrfy
      | .unknown => unknown := by
  simp only [verbOf]
  split_ifs <;> rfl

/-- One command on the linked session does what it does on the dialogue, and
works on no line of another session. -/
theorem Owns.processCommand {w : World} {d : Dialogue} {ms : List Addr} (h : Owns w d ms)
    (command : Bytes) (len : Nat) (mailPath : Bytes) :
    FollowsWithin len w ms (allocations command d) (smtpProcessCommand command len mailPath w)
      (answer (!w.mem.oom w.mem.brk) command d) := by
  obtain ⟨bs, rs, ls, rfl, hfits⟩ := h
  obtain ⟨w₁, hreset, hfits₁, hkept, hconfined, hreply⟩ := hfits.bufferReset
  have howns : Owns w₁ { d with held := [] } (rs ++ ls) := hfits₁.owns
  refine FollowsWithin.after hkept hconfined hreply ?_
  have halloc : w.mem.oom w.mem.brk = w₁.mem.oom w₁.mem.brk := by
    rw [hkept.oom, hconfined.brk, Nat.add_zero]
  simp only [smtpProcessCommand, hreset, Option.bind_eq_bind, Option.bind_some, howns.state_eq,
    answer, allocations, halloc]
  split
  · exact howns.readData len command mailPath
  rw [dispatch_eq]
  cases verbOf (strtrim command) with
  | ehlo => exact howns.follows_reset len .established 0 "250\r\n"
  | mail => exact howns.mail len _
  | rcpt => exact howns.rcpt len _
  | data => exact howns.data len _
  | rset => exact howns.rset len _
  | quit => exact howns.quit len _
  | vrfy => exact howns.follows_reply len 0 "502 Not implemented\r\n"
  | unknown => exact howns.follows_reply len 0 "500 Unknown command\r\n"

theorem Represents.processCommand {w : World} {d : Dialogue} (h : Represents w d)
    (command : Bytes) (len : Nat) (mailPath : Bytes) :
    Follows len w (smtpProcessCommand command len mailPath w)
      (answer (!w.mem.oom w.mem.brk) command d) := by
  obtain ⟨bs, rs, ls, hfits⟩ := h
  exact (hfits.owns.processCommand command len mailPath).follows

theorem Owns.startSession {w : World} {d : Dialogue} {ms : List Addr} (h : Owns w d ms)
    (len : Nat) :
    FollowsWithin len w ms 0 (smtpStartSession len w) (some (0, some "220\r\n", fresh .initial)) :=
  h.follows_reset len .initial 0 "220\r\n"

theorem Represents.startSession {w : World} {d : Dialogue} (h : Represents w d) (len : Nat) :
    Follows len w (smtpStartSession len w) (some (0, some "220\r\n", fresh .initial)) := by
  obtain ⟨bs, rs, ls, hfits⟩ := h
  exact (hfits.owns.startSession len).follows

end SmtpMta.Server.Protocol
