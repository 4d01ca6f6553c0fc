import SmtpMta.Server.ReadLoop
import SmtpMta.Server.SessionInvariant

/-! What the loop over one read does with the session and its descriptor, in
order. A use of the session after its release is recorded and ends the list, as
nothing is defined behind it. -/
namespace SmtpMta.Server.Release
open Library.CString Common.StringUtils Smtp ReadLoop SessionInvariant

inductive Touch where
  | session
  | send
  | close
  | free
deriving DecidableEq

def turn (mailPath : Bytes) (start : Bytes) (c : Connection) : Option (Bytes × Connection) := do
  let fin ← strcrlf start
  let (command, w) ← joinCommand start fin c.world
  let (ret, w') ← smtpProcessCommand command serverReplyMaxLen mailPath w
  some (start.drop (fin + 2),
    ⟨w', c.calls ++ [⟨w, cstr command, w'⟩], c.sent ++ w'.reply, ret < 0⟩)

theorem turn_cases {mailPath start start' : Bytes} {c c' : Connection}
    (h : turn mailPath start c = some (start', c')) :
    ∃ fin command w ret w', strcrlf start = some fin ∧
      joinCommand start fin c.world = some (command, w) ∧
      smtpProcessCommand command serverReplyMaxLen mailPath w = some (ret, w') ∧
      start' = start.drop (fin + 2) ∧
      c' = ⟨w', c.calls ++ [⟨w, cstr command, w'⟩], c.sent ++ w'.reply, ret < 0⟩ := by
  obtain ⟨fin, hscan, h⟩ := Option.bind_eq_some_iff.mp h
  obtain ⟨⟨command, w⟩, hjoin, h⟩ := Option.bind_eq_some_iff.mp h
  obtain ⟨⟨ret, w'⟩, hcall, h⟩ := Option.bind_eq_some_iff.mp h
  obtain ⟨rfl, rfl⟩ := Prod.mk.inj (Option.some.inj h)
  exact ⟨fin, command, w, ret, w', hscan, hjoin, hcall, rfl, rfl⟩

/-- A read that has not ended looks into the session: for the size of its
buffer if a command ends, and for the buffer itself if a line can be kept. -/
def looksIn (start : Bytes) (w : World) : Bool :=
  strlen start ≠ 0 && ((strcrlf start).isSome || !w.mem.oom w.mem.brk)

def touches (mailPath : Bytes) : Nat → Bytes → Connection → List Touch
  | 0, _, _ => []
  | bound + 1, start, c =>
      if !looksIn start c.world then []
      else .session :: if c.closed then []
        else match turn mailPath start c with
          | none => []
          | some (start, c) =>
              .send :: (if c.closed then [.close, .free] else []) ++ touches mailPath bound start c

/-- The turns of a loop. -/
inductive Turns (mailPath : Bytes) : Bytes → Connection → Bytes → Connection → Prop where
  | refl (start : Bytes) (c : Connection) : Turns mailPath start c start c
  | step {start start' start'' : Bytes} {c c' c'' : Connection} : strlen start ≠ 0 →
      c.closed = false → turn mailPath start c = some (start', c') →
      Turns mailPath start' c' start'' c'' → Turns mailPath start c start'' c''

theorem commandLoop_turn {mailPath : Bytes} {bound : Nat} {start : Bytes} {c : Connection}
    (hstart : strlen start ≠ 0) (hopen : c.closed = false) (hscan : (strcrlf start).isSome) :
    commandLoop mailPath (bound + 1) start c =
      (turn mailPath start c).bind fun r => commandLoop mailPath bound r.1 r.2 := by
  obtain ⟨fin, hfin⟩ := Option.isSome_iff_exists.mp hscan
  simp only [commandLoop, turn, hstart, hopen, hfin, if_false, Bool.false_eq_true,
    Option.bind_eq_bind, Option.bind_some, Option.bind_assoc]

theorem commandLoop_turns {mailPath : Bytes} {bound : Nat} {start : Bytes} {c c' : Connection}
    (h : commandLoop mailPath bound start c = some c') :
    ∃ start₁ c₁, Turns mailPath start c start₁ c₁ ∧
      (c' = c₁ ∨ ∃ world, bufferLine start₁ c₁.world = some world ∧ c' = { c₁ with world }) := by
  induction bound generalizing start c with
  | zero => cases h
  | succ bound ih =>
    by_cases hstart : strlen start = 0
    · rw [commandLoop, if_pos hstart] at h
      exact ⟨start, c, .refl start c, .inl (Option.some.inj h).symm⟩
    cases hopen : c.closed with
    | true => simp [commandLoop, hstart, hopen] at h
    | false =>
      cases hscan : strcrlf start with
      | none =>
        simp only [commandLoop, hstart, hopen, hscan, if_false, Bool.false_eq_true] at h
        obtain ⟨world, hline, h⟩ := Option.bind_eq_some_iff.mp h
        exact ⟨start, c, .refl start c, .inr ⟨world, hline, by simpa [hopen] using h.symm⟩⟩
      | some fin =>
        rw [commandLoop_turn hstart hopen (by simp [hscan])] at h
        obtain ⟨⟨start₁, c₁⟩, hturn, h⟩ := Option.bind_eq_some_iff.mp h
        obtain ⟨start₂, c₂, hturns, hlast⟩ := ih h
        exact ⟨start₂, c₂, .step hstart hopen hturn hturns, hlast⟩

/-- What holds from one step of a connection to the next. -/
structure Preserved (mailPath : Bytes) (P : Connection → Prop) : Prop where
  clear : ∀ c, P c → P { c with world := { c.world with reply := [] } }
  line : ∀ start c world, P c → bufferLine start c.world = some world → P { c with world }
  turn : ∀ start c start' c', P c → turn mailPath start c = some (start', c') → P c'

section Preserved
variable {mailPath : Bytes} {P : Connection → Prop} {c c' : Connection}

theorem Preserved.turns (h : Preserved mailPath P) {start start' : Bytes}
    (hturns : Turns mailPath start c start' c') (hP : P c) : P c' := by
  induction hturns with
  | refl => exact hP
  | step _ _ hturn _ ih => exact ih (h.turn _ _ _ _ hP hturn)

theorem Preserved.serveRead (h : Preserved mailPath P) {input : Bytes}
    (hread : ReadLoop.serveRead mailPath c input = some c') (hP : P c) : P c' := by
  unfold ReadLoop.serveRead at hread
  split_ifs at hread
  · exact Option.some.inj hread ▸ hP
  · obtain ⟨start, c₁, hturns, hlast⟩ := commandLoop_turns hread
    have hP₁ : P c₁ := h.turns hturns (h.clear c hP)
    rcases hlast with rfl | ⟨world, hline, rfl⟩
    · exact hP₁
    · exact h.line start c₁ world hP₁ hline

theorem Preserved.serve (h : Preserved mailPath P) {reads : List Bytes}
    (hserve : ReadLoop.serve mailPath c reads = some c') (hP : P c) : P c' := by
  induction reads generalizing c with
  | nil =>
    obtain rfl : c = c' := by simpa [ReadLoop.serve] using hserve
    exact hP
  | cons input reads ih =>
    obtain ⟨c₁, hread, hrest⟩ := Option.bind_eq_some_iff.mp hserve
    exact ih hrest (h.serveRead hread hP)

end Preserved

/-- Nothing is done after the release. -/
def Untouched (touched : List Touch) : Prop :=
  ∀ before after, touched = before ++ .free :: after → after = []

/-- Nothing of a read is left when the session is released. -/
def EndsRead (mailPath start : Bytes) (c : Connection) : Prop :=
  ∀ start' c', Turns mailPath start c start' c' → c'.closed = true → looksIn start' c'.world = false

section Loop
variable {mailPath start start' : Bytes} {c c' : Connection}

theorem untouched_cons {touch : Touch} (h : touch ≠ .free) (rest : List Touch) :
    Untouched (touch :: rest) ↔ Untouched rest := by
  refine ⟨fun hall before after hsplit => ?_, fun hall before after hsplit => ?_⟩
  · exact hall (touch :: before) after (by rw [hsplit, List.cons_append])
  · cases before with
    | nil => exact absurd (List.cons.inj hsplit).1 h
    | cons first before => exact hall before after (List.cons.inj hsplit).2

theorem untouched_free {rest : List Touch} (h : .free ∉ rest) :
    Untouched (.free :: rest) ↔ rest = [] := by
  refine ⟨fun hall => hall [] rest rfl, ?_⟩
  rintro rfl before after hsplit
  rcases List.singleton_eq_append_iff.mp hsplit with ⟨-, hfree⟩ | ⟨-, hfree⟩
  · exact (List.cons.inj hfree).2
  · simp at hfree

theorem touches_closed (bound : Nat) (start : Bytes) (hclosed : c.closed = true) :
    touches mailPath (bound + 1) start c = if looksIn start c.world then [.session] else [] := by
  rw [touches]
  cases looksIn start c.world <;> simp [hclosed]

theorem turn_shortens (h : turn mailPath start c = some (start', c')) :
    strlen start' < strlen start ∧ looksIn start c.world = true := by
  obtain ⟨fin, command, w, ret, w', hfin, -, -, rfl, -⟩ := turn_cases h
  obtain ⟨hlen, -⟩ := strcrlf_eq_some hfin
  have hdrop := congrArg List.length (Protocol.cstr_drop hlen)
  rw [List.length_drop] at hdrop
  simp only [strlen] at hdrop hlen ⊢
  refine ⟨by omega, ?_⟩
  have hne : strlen start ≠ 0 := by simp only [strlen]; omega
  simp [looksIn, hne, hfin]

theorem endsRead_turn (hopen : c.closed = false)
    (hturn : turn mailPath start c = some (start', c')) :
    EndsRead mailPath start c ↔ EndsRead mailPath start' c' := by
  have hne : strlen start ≠ 0 := by
    have := (turn_shortens hturn).1
    omega
  refine ⟨fun hends start'' c'' hturns => hends start'' c'' (.step hne hopen hturn hturns),
    fun hends start'' c'' hturns hclosed => ?_⟩
  cases hturns with
  | refl => simp [hopen] at hclosed
  | step _ _ hturn' hturns =>
    obtain ⟨rfl, rfl⟩ := Prod.mk.inj (Option.some.inj (hturn.symm.trans hturn'))
    exact hends start'' c'' hturns hclosed

theorem endsRead_of_none (hopen : c.closed = false) (hturn : turn mailPath start c = none) :
    EndsRead mailPath start c := by
  intro start' c' hturns hclosed
  cases hturns with
  | refl => simp [hopen] at hclosed
  | step _ _ hturn' => simp [hturn] at hturn'

theorem endsRead_closed (hclosed : c.closed = true) :
    EndsRead mailPath start c ↔ looksIn start c.world = false := by
  refine ⟨fun hends => hends start c (.refl start c) hclosed, fun hlooks start' c' hturns _ => ?_⟩
  cases hturns with
  | refl => exact hlooks
  | step _ hopen => simp [hclosed] at hopen

theorem touches_untouched {bound : Nat} (hbound : strlen start < bound) (hopen : c.closed = false) :
    Untouched (touches mailPath bound start c) ↔ EndsRead mailPath start c := by
  induction bound generalizing start c with
  | zero => omega
  | succ bound ih =>
    rw [touches]
    cases hturn : turn mailPath start c with
    | none =>
      refine iff_of_true (fun before after hsplit => ?_) (endsRead_of_none hopen hturn)
      split at hsplit
      · simp at hsplit
      · simp only [hopen, Bool.false_eq_true, if_false] at hsplit
        rcases List.singleton_eq_append_iff.mp hsplit with ⟨-, hfree⟩ | ⟨-, hfree⟩ <;> simp at hfree
    | some next =>
      obtain ⟨start', c'⟩ := next
      obtain ⟨hshorter, hlooks⟩ := turn_shortens hturn
      simp only [hlooks, hopen, Bool.not_true, Bool.false_eq_true, if_false, List.cons_append]
      rw [untouched_cons (by decide), untouched_cons (by decide), endsRead_turn hopen hturn]
      cases hclosed : c'.closed with
      | false =>
        simp only [Bool.false_eq_true, if_false, List.nil_append]
        exact ih (by omega) hclosed
      | true =>
        obtain ⟨n, rfl⟩ : ∃ n, bound = n + 1 := ⟨bound - 1, by omega⟩
        simp only [if_true, List.cons_append, List.nil_append]
        rw [untouched_cons (by decide), endsRead_closed hclosed, touches_closed n start' hclosed,
          untouched_free (by split <;> simp)]
        cases looksIn start' c'.world <;> simp

def readBuffer (input : Bytes) : Bytes :=
  input ++ List.replicate (serverCommandMaxLen + 1 - input.length) nul

/-- A released session and its descriptor are left alone for the rest of the
read if and only if nothing is left of the read. -/
theorem closed_session_untouched (mailPath : Bytes) (hopen : c.closed = false) {input : Bytes}
    (hinput : input.length ≤ serverCommandMaxLen) :
    Untouched (touches mailPath (readBuffer input).length (readBuffer input) c) ↔
      EndsRead mailPath (readBuffer input) c := by
  refine touches_untouched ?_ hopen
  have hle : (cstr input).length ≤ input.length := (List.takeWhile_sublist _).length_le
  rw [strlen, readBuffer, cstr_pad input, List.length_append, List.length_replicate]
  omega

end Loop

def silentConnection : Connection := ⟨idle, [], [], false⟩

theorem closed_session_untouched_quit :
    Untouched (touches (ascii "./mail") (readBuffer (ascii "QUIT\r\n")).length
        (readBuffer (ascii "QUIT\r\n")) silentConnection) ↔
      EndsRead (ascii "./mail") (readBuffer (ascii "QUIT\r\n")) silentConnection :=
  closed_session_untouched _ rfl (by decide)

/-- A command behind QUIT is looked up in the released session. -/
theorem pipelined_quit_touches :
    touches (ascii "./mail") (readBuffer (ascii "QUIT\r\nNOOP\r\n")).length
        (readBuffer (ascii "QUIT\r\nNOOP\r\n")) silentConnection =
      [.session, .send, .close, .free, .session] ∧
    ¬Untouched (touches (ascii "./mail") (readBuffer (ascii "QUIT\r\nNOOP\r\n")).length
      (readBuffer (ascii "QUIT\r\nNOOP\r\n")) silentConnection) := by
  have hrun : touches (ascii "./mail") (readBuffer (ascii "QUIT\r\nNOOP\r\n")).length
      (readBuffer (ascii "QUIT\r\nNOOP\r\n")) silentConnection =
        [.session, .send, .close, .free, .session] := by
    decide +kernel
  refine ⟨hrun, fun huntouched => ?_⟩
  have hlast := huntouched [.session, .send, .close] [.session] hrun
  simp at hlast

end SmtpMta.Server.Release
