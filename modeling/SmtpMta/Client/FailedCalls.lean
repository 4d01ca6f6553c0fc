import SmtpMta.Client.Queue
import Mathlib.Data.Nat.Find

/-! The handlers when calls of `concat_dynamic_strings` fail. Its error value is a
length, which goes on into the next call. -/
namespace SmtpMta.Client.FailedCalls
open Library.CString Common.SharedStrings Fsm Queue

/-- The bytes of several strings. -/
def stringBytes (parts : List Bytes) : Bytes := (parts.map cstr).flatten

def built (parts : List Bytes) : Option Bytes :=
  if parts = [] then none else some (stringBytes parts)

/-- The calls that put a command together, each with the number of bytes in the
buffer that it extends and the length that it is given for it. -/
def partCalls (room : Nat → Bool) : Nat → Option Bytes × Int → List Bytes → List (Nat × Int)
  | _, _, [] => []
  | k, (comm, newLen), part :: parts =>
    (comm.elim 0 List.length, newLen) ::
      (concatDynamicStrings (room k) comm (some part) newLen (strlen part)).elim [] fun comm =>
        partCalls room (k + 1) comm parts

def sendCall (c : Conn) : Nat × Int :=
  ((unsent c).elim 0 List.length, c.toSend)

def queueCalls (room : Nat → Bool) (parts : List Bytes) (c : Conn) : List (Nat × Int) :=
  partCalls room 0 (none, 0) parts ++
    (concatParts room 0 (none, 0) parts).elim [] fun _ => [sendCall c]

/-- The calls of `HANDLE_DATA` behind those of `concat_mail_text`. -/
def blockCalls (room : Nat → Bool) (behind : Bytes) (c : Conn) (text : Bytes) : List (Nat × Int) :=
  let k := c.mailText.length
  let text := text ++ behind
  (0, 0) ::
    (concatDynamicStrings (room k) none (some text) 0 (strlen text)).elim [] fun (comm, newLen) =>
      (comm.elim 0 List.length, newLen) ::
        (concatDynamicStrings (room (k + 1)) comm (some (ascii "\r\n.\r\n")) newLen 5).elim []
          fun _ => [sendCall c]

def dataCalls (room : Nat → Bool) (behind : Bytes) (c : Conn) : List (Nat × Int) :=
  partCalls room 0 (none, 0) c.mailText ++
    (concatMailText room c.mailText).elim [] fun text => text.elim [] (blockCalls room behind c)

inductive Handler where
  | connect
  | ehlo
  | mf
  | rt
  | data
  | quit

def Handler.run (room : Nat → Bool) (behind : Bytes) (nextState : State) (c : Conn) :
    Handler → Option (State × Conn)
  | .connect => handleConnect room nextState c
  | .ehlo => handleEhlo room nextState c
  | .mf => handleMf room nextState c
  | .rt => handleRt room nextState c
  | .data => handleData room behind nextState c
  | .quit => handleQuit room nextState c

def Handler.parts (c : Conn) : Handler → List Bytes
  | .connect => [ascii "EHLO ", domain, ascii "\r\n"]
  | .ehlo => [ascii "MAIL FROM:<", c.mailFrom, ascii ">\r\n"]
  | .mf => [ascii "RCPT TO:<", c.mailTo, ascii ">\r\n"]
  | .rt => [ascii "DATA", ascii "\r\n"]
  | .data => c.mailText ++ [ascii "\r\n.\r\n"]
  | .quit => [ascii "QUIT\r\n"]

def Handler.calls (room : Nat → Bool) (behind : Bytes) (c : Conn) (handler : Handler) :
    List (Nat × Int) :=
  match handler with
  | .data => dataCalls room behind c
  | _ => queueCalls room (handler.parts c) c

/-- Every call is given the length of the buffer that it extends, and `to_send` is
still the number of queued bytes: those from before, or with the complete command.
All lengths go through an `int`. -/
structure QueueKept (room : Nat → Bool) (behind : Bytes) (nextState : State) (c : Conn)
    (queued : Bytes) (handler : Handler) : Prop where
  calls : ∀ call ∈ handler.calls room behind c, toInt call.2 = call.1
  result : ∃ state c', handler.run room behind nextState c = some (state, c') ∧
    toInt c'.toSend = c'.toSend ∧
    (unsent c' = some queued ∨ unsent c' = some (queued ++ stringBytes (handler.parts c)))

/-- The same for lengths that have no bound. -/
structure Kept (room : Nat → Bool) (behind : Bytes) (nextState : State) (c : Conn)
    (queued : Bytes) (handler : Handler) : Prop where
  calls : ∀ call ∈ handler.calls room behind c, call.2 = call.1
  result : ∃ state c', handler.run room behind nextState c = some (state, c') ∧
    (unsent c' = some queued ∨ unsent c' = some (queued ++ stringBytes (handler.parts c)))

def BlockRoom (room : Nat → Bool) (n : Nat) : Prop :=
  room n = true ∧ room (n + 1) = true ∧ room (n + 2) = true

instance (room : Nat → Bool) (n : Nat) : Decidable (BlockRoom room n) :=
  inferInstanceAs (Decidable (_ ∧ _ ∧ _))

def GivesUp (room : Nat → Bool) (c : Conn) : Handler → Prop
  | .data => c.mailText.length = 0 ∨ (c.mailText.length = 1 ∧ room 0 = false)
  | _ => False

/-- No call fails; or, for `HANDLE_DATA`, the last call for the text does and the memory
behind the block makes up for it. The block has no terminator: it has to come from there. -/
def Complete (room : Nat → Bool) (behind : Bytes) (c : Conn) : Handler → Prop
  | .data =>
    let n := c.mailText.length
    (∀ k, k + 1 < n → room k = true) ∧ BlockRoom room n ∧
      if room (n - 1) then cstr behind = [] else cstr behind = stringBytes (c.mailText.drop (n - 1))
  | handler => ∀ k ≤ (handler.parts c).length, room k = true

/-- The queue with the complete command can be counted in an `int`. -/
def Counts (c : Conn) (handler : Handler) : Prop :=
  c.toSend + (stringBytes (handler.parts c)).length < 2 ^ 31

instance (c : Conn) (handler : Handler) : Decidable (Counts c handler) :=
  inferInstanceAs (Decidable (_ < _))

instance (room : Nat → Bool) (c : Conn) : ∀ handler, Decidable (GivesUp room c handler)
  | .data => inferInstanceAs (Decidable (_ ∨ _))
  | .connect | .ehlo | .mf | .rt | .quit => inferInstanceAs (Decidable False)

def Harmless (room : Nat → Bool) (behind : Bytes) (c : Conn) (handler : Handler) : Prop :=
  GivesUp room c handler ∨ (Complete room behind c handler ∧ Counts c handler)

section Calls
variable {room : Nat → Bool} {k : Nat} {comm : Option Bytes} {len : Int} {text : Bytes}
  {parts : List Bytes}

theorem concat_dead {room : Bool} {str1 str2 buf : Option Bytes} {len1 len2 : Int}
    (h : concatDynamicStrings room str1 str2 len1 len2 = some (buf, len))
    (hbad : room = false ∨ len1 = -1 ∨ len2 = -1) : len = -1 := by
  cases hroom : room with
  | false =>
    obtain ⟨-, rfl⟩ : str1 = buf ∧ -1 = len := by simpa [concatDynamicStrings, hroom] using h
    rfl
  | true =>
    rw [hroom] at h
    obtain ⟨left, hleft, h⟩ := Option.bind_eq_some_iff.mp h
    obtain ⟨right, hright, -⟩ := Option.bind_eq_some_iff.mp h
    rcases hbad with hno | rfl | rfl
    · simp [hroom] at hno
    · simp [memcpyFrom] at hleft
    · simp [memcpyFrom] at hright

theorem concatParts_append (left right : List Bytes) (comm : Option Bytes × Int) :
    concatParts room k comm (left ++ right) =
      (concatParts room k comm left).bind fun comm => concatParts room (k + left.length) comm right := by
  induction left generalizing k comm with
  | nil => rfl
  | cons part left ih =>
    simp only [List.cons_append, concatParts, Option.bind_eq_bind, Option.bind_assoc, ih,
      List.length_cons, Nat.add_assoc, Nat.add_comm 1]

theorem concatParts_done (hcomm : memcpyFrom comm len = some text)
    (hroom : ∀ j < parts.length, room (k + j) = true) :
    concatParts room k (comm, len) parts =
      some (if parts = [] then comm else some (text ++ stringBytes parts),
        ((text ++ stringBytes parts).length : Int)) := by
  induction parts generalizing k comm len text with
  | nil =>
    rw [memcpyFrom_eq hcomm]
    simp [concatParts, stringBytes]
  | cons part parts ih =>
    have hfirst : room k = true := hroom 0 (Nat.succ_pos _)
    have hrest (j : Nat) (hj : j < parts.length) : room (k + 1 + j) = true := by
      rw [Nat.add_assoc, Nat.add_comm 1]
      exact hroom (j + 1) (Nat.succ_lt_succ hj)
    rw [concatParts, hfirst, concatDynamicStrings_eq hcomm (memcpyFrom_cstr part)]
    refine (ih (memcpyFrom_self _) hrest).trans ?_
    cases parts <;> simp [stringBytes]

theorem concatParts_failed (k : Nat) (comm : Option Bytes) (parts : List Bytes) :
    concatParts room k (comm, -1) parts =
      if ∀ j < parts.length, room (k + j) = false then some (comm, -1) else none := by
  induction parts generalizing k with
  | nil => simp [concatParts]
  | cons part parts ih =>
    cases hroom : room k with
    | true =>
      have hnot : ¬∀ j < (part :: parts).length, room (k + j) = false := by
        intro hall
        have := hall 0 (Nat.succ_pos _)
        simp [hroom] at this
      rw [if_neg hnot, concatParts, hroom]
      simp [concatDynamicStrings, memcpyFrom]
    | false =>
      have hiff : (∀ j < (part :: parts).length, room (k + j) = false) ↔
          ∀ j < parts.length, room (k + 1 + j) = false := by
        constructor
        · intro hall j hj
          rw [Nat.add_assoc, Nat.add_comm 1]
          exact hall (j + 1) (Nat.succ_lt_succ hj)
        · rintro hall (_ | j) hj
          · exact hroom
          · rw [← Nat.add_comm 1, ← Nat.add_assoc]
            exact hall j (Nat.lt_of_succ_lt_succ hj)
      simp only [concatParts, hroom, concatDynamicStrings, Bool.false_eq_true, if_false,
        Option.bind_eq_bind, Option.bind_some, ih, hiff]

theorem concatParts_first {f : Nat} (hf : f < parts.length) (hbefore : ∀ j < f, room j = true)
    (hfail : room f = false) : concatParts room 0 (none, 0) parts =
      if ∀ j < parts.length - (f + 1), room (f + 1 + j) = false then some (built (parts.take f), -1)
      else none := by
  have hsplit : parts = parts.take f ++ parts[f] :: parts.drop (f + 1) := by
    rw [← List.drop_eq_getElem_cons hf, List.take_append_drop]
  have hlen : (parts.take f).length = f := List.length_take_of_le (Nat.le_of_lt hf)
  rw [← List.length_drop, ← concatParts_failed, hsplit, concatParts_append,
    concatParts_done (memcpyFrom_zero none) (by rw [hlen]; simpa using hbefore), hlen,
    Option.bind_some, Nat.zero_add, concatParts, hfail, ← hsplit]
  rfl

theorem concatParts_split {n : Nat} (hn : n ≤ parts.length) (hrooms : ∀ j < n, room j = true)
    (hfails : ∀ j, n ≤ j → j < parts.length → room j = false) :
    ∃ len, concatParts room 0 (none, 0) parts = some (built (parts.take n), len) ∧
      if n = parts.length then len = (stringBytes parts).length else len = -1 := by
  rcases Nat.lt_or_eq_of_le hn with hlt | rfl
  · refine ⟨-1, ?_, if_neg (Nat.ne_of_lt hlt) ▸ rfl⟩
    rw [concatParts_first hlt hrooms (hfails n le_rfl hlt), if_pos]
    exact fun j hj => hfails (n + 1 + j) (by omega) (by omega)
  · refine ⟨(stringBytes parts).length, ?_, by rw [if_pos rfl]⟩
    rw [concatParts_done (memcpyFrom_zero none) (by simpa using hrooms), List.take_length]
    rfl

theorem concatParts_cases (room : Nat → Bool) (parts : List Bytes) :
    (∃ n ≤ parts.length, (∀ j < n, room j = true) ∧ ∀ j, n ≤ j → j < parts.length → room j = false) ∨
      (concatParts room 0 (none, 0) parts = none ∧ ∃ j, j + 1 < parts.length ∧ room j = false) := by
  by_cases hall : ∀ j < parts.length, room j = true
  · exact .inl ⟨parts.length, le_rfl, hall, fun j hj hlt => by omega⟩
  · push Not at hall
    obtain ⟨f, ⟨hf, hfail⟩, hmin⟩ := Nat.findX hall
    have hfail : room f = false := by simpa using hfail
    have hbefore : ∀ j < f, room j = true := by
      intro j hj
      by_contra hno
      exact hmin j hj ⟨hj.trans hf, hno⟩
    have hfirst := concatParts_first hf hbefore hfail
    split at hfirst
    · rename_i hrest
      refine .inl ⟨f, Nat.le_of_lt hf, hbefore, fun j hj hlt => ?_⟩
      rcases Nat.lt_or_eq_of_le hj with hgt | rfl
      · obtain ⟨d, rfl⟩ := Nat.exists_eq_add_of_lt hgt
        have hindex : f + d + 1 = f + 1 + d := by omega
        rw [hindex]
        exact hrest d (by omega)
      · exact hfail
    · rename_i hrest
      push Not at hrest
      obtain ⟨d, hd, -⟩ := hrest
      exact .inr ⟨hfirst, f, by omega, hfail⟩

theorem partCalls_sound_iff (hcomm : memcpyFrom comm len = some text)
    (hlen : comm.elim 0 List.length = text.length) :
    (∀ call ∈ partCalls room k (comm, len) parts, call.2 = call.1) ↔
      ∀ j, j + 1 < parts.length → room (k + j) = true := by
  induction parts generalizing k comm len text with
  | nil => simp [partCalls]
  | cons part parts ih =>
    have hhead : len = (comm.elim 0 List.length : Nat) := by rw [hlen, memcpyFrom_eq hcomm]
    cases hroom : room k with
    | true =>
      have hnext := @ih (k + 1) _ _ _ (memcpyFrom_self (text ++ cstr part)) rfl
      simp only [partCalls, hroom, concatDynamicStrings_eq hcomm (memcpyFrom_cstr part),
        Option.elim_some, List.forall_mem_cons, hnext, ← hhead, true_and]
      constructor
      · rintro hrest (_ | j) hj
        · exact hroom
        · rw [← Nat.add_comm 1, ← Nat.add_assoc]
          exact hrest j (Nat.lt_of_succ_lt_succ hj)
      · intro hall j hj
        rw [Nat.add_assoc, Nat.add_comm 1]
        exact hall (j + 1) (Nat.succ_lt_succ hj)
    | false =>
      cases parts with
      | nil => simp [partCalls, hroom, concatDynamicStrings, ← hhead]
      | cons next parts =>
        have hno : ¬∀ j, j + 1 < (part :: next :: parts).length → room (k + j) = true := by
          intro hall
          have := hall 0 (by simp)
          simp [hroom] at this
        refine iff_of_false (fun hsound => ?_) hno
        have hbad := hsound (comm.elim 0 List.length, -1) (by
          simp [partCalls, hroom, concatDynamicStrings])
        simp only at hbad
        omega

end Calls

section Queue
variable {room : Nat → Bool} {behind : Bytes} {nextState : State} {c : Conn} {queued text : Bytes}

theorem sendCall_sound (hqueued : unsent c = some queued) : (sendCall c).2 = (sendCall c).1 := by
  rw [sendCall, hqueued]
  exact memcpyFrom_eq hqueued

theorem queue_complete {parts : List Bytes} (hne : parts ≠ []) (hqueued : unsent c = some queued)
    (hall : ∀ k ≤ parts.length, room k = true) :
    concatParts room 0 (none, 0) parts =
        some (some (stringBytes parts), ((stringBytes parts).length : Int)) ∧
      queue room nextState parts c =
        some (nextState, sending c nextState (queued ++ stringBytes parts)) := by
  have hparts : concatParts room 0 (none, 0) parts =
      some (some (stringBytes parts), ((stringBytes parts).length : Int)) := by
    rw [concatParts_done (memcpyFrom_zero none) (by simpa using fun j hj => hall j (Nat.le_of_lt hj)),
      if_neg hne]
    rfl
  refine ⟨hparts, ?_⟩
  simp only [queue, hparts, hall parts.length le_rfl,
    concatDynamicStrings_eq hqueued (memcpyFrom_self (stringBytes parts)), Option.bind_eq_bind,
    Option.bind_some]
  rfl

theorem queue_kept_iff {parts : List Bytes} (hne : parts ≠ []) (hqueued : unsent c = some queued) :
    ((∀ call ∈ queueCalls room parts c, call.2 = call.1) ∧
      ∃ state c', queue room nextState parts c = some (state, c') ∧
        (unsent c' = some queued ∨ unsent c' = some (queued ++ stringBytes parts))) ↔
      ∀ k ≤ parts.length, room k = true := by
  have hsound := @partCalls_sound_iff room 0 none 0 [] parts (memcpyFrom_zero none) rfl
  simp only [Nat.zero_add] at hsound
  constructor
  · rintro ⟨hcalls, state, c', hrun, hunsent⟩
    have hbefore := hsound.mp fun call hcall => hcalls call (List.mem_append_left _ hcall)
    obtain ⟨⟨comm, newLen⟩, hparts, hrun⟩ := Option.bind_eq_some_iff.mp hrun
    obtain ⟨⟨sendBuf, toSend⟩, hsend, hrun⟩ := Option.bind_eq_some_iff.mp hrun
    obtain ⟨-, rfl⟩ := Prod.mk.inj (Option.some.inj hrun)
    have halive : toSend ≠ -1 := by
      intro hdead
      simp [unsent, memcpyFrom, hdead] at hunsent
    have hlast : room parts.length = true := by
      by_contra hno
      exact halive (concat_dead hsend (.inl (by simpa using hno)))
    rcases concatParts_cases room parts with ⟨k, hk, hrooms, hfails⟩ | ⟨hnone, -⟩
    · obtain ⟨len, hcase, hlen⟩ := concatParts_split hk hrooms hfails
      obtain ⟨-, rfl⟩ := Prod.mk.inj (Option.some.inj (hcase.symm.trans hparts))
      split at hlen
      · rename_i hall
        intro j hj
        rcases Nat.lt_or_eq_of_le hj with hlt | rfl
        · exact hrooms j (hall ▸ hlt)
        · exact hlast
      · exact absurd (concat_dead hsend (.inr (.inr hlen))) halive
    · simp [hnone] at hparts
  · intro hall
    obtain ⟨hparts, hrun⟩ := queue_complete hne hqueued hall
    refine ⟨fun call hcall => ?_, nextState,
      sending c nextState (queued ++ stringBytes parts), hrun, .inr (unsent_sending _ _ _)⟩
    rw [queueCalls, hparts] at hcall
    rcases List.mem_append.mp hcall with hcall | hcall
    · exact hsound.mpr (fun j hj => hall j (by omega)) call hcall
    · obtain rfl := List.mem_singleton.mp hcall
      exact sendCall_sound hqueued

end Queue

section Data
variable {room : Nat → Bool} {behind : Bytes} {nextState state : State} {c c' : Conn}
  {queued text : Bytes}

theorem concatMailText_split {mailText : List Bytes} {k : Nat} (hk : k ≤ mailText.length)
    (hrooms : ∀ j < k, room j = true) (hfails : ∀ j, k ≤ j → j < mailText.length → room j = false) :
    concatMailText room mailText = some (built (mailText.take k)) := by
  obtain ⟨len, hparts, -⟩ := concatParts_split hk hrooms hfails
  rw [concatMailText, hparts]
  rfl

theorem handleData_none (htext : concatMailText room c.mailText = some none) :
    handleData room behind nextState c = some (.sError, { c with state := .sError }) := by
  simp [handleData, htext, handleError]

theorem handleData_block (htext : concatMailText room c.mailText = some (some text))
    (hrooms : BlockRoom room c.mailText.length) (hqueued : unsent c = some queued) :
    handleData room behind nextState c = some (nextState, sending c nextState
      (queued ++ (cstr (text ++ behind) ++ ascii "\r\n.\r\n"))) := by
  obtain ⟨h₀, h₁, h₂⟩ := hrooms
  have hdot : memcpyFrom (some (ascii "\r\n.\r\n")) 5 = some (ascii "\r\n.\r\n") := by decide
  simp only [handleData, htext, h₀, h₁, h₂,
    concatDynamicStrings_eq (memcpyFrom_zero none) (memcpyFrom_cstr (text ++ behind)),
    concatDynamicStrings_eq (memcpyFrom_self _) hdot,
    concatDynamicStrings_eq hqueued (memcpyFrom_self _), Option.bind_eq_bind, Option.bind_some,
    List.nil_append]
  rfl

theorem handleData_dead (htext : concatMailText room c.mailText = some (some text))
    (hno : ¬BlockRoom room c.mailText.length)
    (hrun : handleData room behind nextState c = some (state, c')) : unsent c' = none := by
  simp only [handleData, htext, Option.bind_eq_bind, Option.bind_some] at hrun
  obtain ⟨⟨comm, len⟩, h₀, hrun⟩ := Option.bind_eq_some_iff.mp hrun
  obtain ⟨⟨comm', len'⟩, h₁, hrun⟩ := Option.bind_eq_some_iff.mp hrun
  obtain ⟨⟨sendBuf, toSend⟩, h₂, hrun⟩ := Option.bind_eq_some_iff.mp hrun
  obtain ⟨-, rfl⟩ := Prod.mk.inj (Option.some.inj hrun)
  have hdead : toSend = -1 := by
    by_cases hroom₂ : room (c.mailText.length + 2) = true
    · refine concat_dead h₂ (.inr (.inr ?_))
      by_cases hroom₁ : room (c.mailText.length + 1) = true
      · have hroom₀ : room c.mailText.length = false := by
          by_contra hroom₀
          exact hno ⟨by simpa using hroom₀, hroom₁, hroom₂⟩
        exact concat_dead h₁ (.inr (.inl (concat_dead h₀ (.inl hroom₀))))
      · exact concat_dead h₁ (.inl (by simpa using hroom₁))
    · exact concat_dead h₂ (.inl (by simpa using hroom₂))
  simp [unsent, memcpyFrom, hdead]

theorem blockCalls_sound (hrooms : BlockRoom room c.mailText.length)
    (hqueued : unsent c = some queued) :
    ∀ call ∈ blockCalls room behind c text, call.2 = call.1 := by
  obtain ⟨h₀, h₁, -⟩ := hrooms
  have hdot : memcpyFrom (some (ascii "\r\n.\r\n")) 5 = some (ascii "\r\n.\r\n") := by decide
  have hsend := sendCall_sound hqueued
  simp only [blockCalls, h₀, h₁,
    concatDynamicStrings_eq (memcpyFrom_zero none) (memcpyFrom_cstr (text ++ behind)),
    concatDynamicStrings_eq (memcpyFrom_self _) hdot, Option.elim_some, List.forall_mem_cons]
  exact ⟨rfl, trivial, hsend, by simp⟩

theorem stringBytes_nulFree (parts : List Bytes) : NulFree (stringBytes parts) :=
  nulFree_flatten.mpr fun part hpart => by
    obtain ⟨block, -, rfl⟩ := List.mem_map.mp hpart
    exact cstr_nulFree block

theorem stringBytes_append (left right : List Bytes) :
    stringBytes (left ++ right) = stringBytes left ++ stringBytes right := by
  simp [stringBytes]

/-- With some of the text built, what is sent is complete if the memory behind the
block goes on with the rest of it. -/
theorem block_complete_iff {mailText : List Bytes} {k : Nat} :
    queued ++ (cstr (stringBytes (mailText.take k) ++ behind) ++ ascii "\r\n.\r\n") =
        queued ++ stringBytes (mailText ++ [ascii "\r\n.\r\n"]) ↔
      cstr behind = stringBytes (mailText.drop k) := by
  have hdot : stringBytes [ascii "\r\n.\r\n"] = ascii "\r\n.\r\n" := by decide
  have hwhole : stringBytes mailText = stringBytes (mailText.take k) ++ stringBytes (mailText.drop k) := by
    rw [← stringBytes_append, List.take_append_drop]
  rw [stringBytes_append, hdot, cstr_append (stringBytes_nulFree _), hwhole]
  simp

theorem built_take {mailText : List Bytes} {k : Nat} (hpos : 1 ≤ k) (hk : k ≤ mailText.length) :
    built (mailText.take k) = some (stringBytes (mailText.take k)) := by
  refine if_neg fun hnil => ?_
  have hlen := congrArg List.length hnil
  rw [List.length_take_of_le hk] at hlen
  simp at hlen
  omega

theorem textCalls_sound_iff (room : Nat → Bool) (mailText : List Bytes) :
    (∀ call ∈ partCalls room 0 (none, 0) mailText, call.2 = call.1) ↔
      ∀ j, j + 1 < mailText.length → room j = true := by
  have hsound := @partCalls_sound_iff room 0 none 0 [] mailText (memcpyFrom_zero none) rfl
  simpa only [Nat.zero_add] using hsound

theorem dataCalls_text (hcalls : ∀ call ∈ dataCalls room behind c, call.2 = call.1) :
    ∀ j, j + 1 < c.mailText.length → room j = true :=
  (textCalls_sound_iff room c.mailText).mp fun call hcall => hcalls call (List.mem_append_left _ hcall)

theorem data_kept_of_none (hqueued : unsent c = some queued)
    (hfails : ∀ j < c.mailText.length, room j = false)
    (htext : concatMailText room c.mailText = some none) :
    Kept room behind nextState c queued .data ↔
      GivesUp room c .data ∨ Complete room behind c .data := by
  have hcalls : dataCalls room behind c = partCalls room 0 (none, 0) c.mailText := by
    rw [dataCalls, htext]
    exact List.append_nil _
  constructor
  · intro hkept
    have hbefore := dataCalls_text hkept.calls
    rcases Nat.lt_or_ge 1 c.mailText.length with hmany | hfew
    · have hfirst := hfails 0 (by omega)
      rw [hbefore 0 hmany] at hfirst
      exact nomatch hfirst
    · rcases Nat.eq_zero_or_pos c.mailText.length with hzero | hone
      · exact .inl (.inl hzero)
      · exact .inl (.inr ⟨by omega, hfails 0 hone⟩)
  · intro hharmless
    have hbefore : ∀ j, j + 1 < c.mailText.length → room j = true := by
      rcases hharmless with (hzero | ⟨hone, -⟩) | ⟨hbefore, -⟩
      · exact fun j hj => by omega
      · exact fun j hj => by omega
      · exact hbefore
    refine ⟨fun call hcall => ?_, _, _, handleData_none htext, .inl hqueued⟩
    change call ∈ dataCalls room behind c at hcall
    rw [hcalls] at hcall
    exact (textCalls_sound_iff room c.mailText).mpr hbefore call hcall

/-- If all calls for the text but the last must have succeeded, the text is there up to
its end, or up to its last line. -/
theorem text_end {k n : Nat} (hk : k ≤ n) (hpos : 1 ≤ k) (hrooms : ∀ j < k, room j = true)
    (hfails : ∀ j, k ≤ j → j < n → room j = false) (hbefore : ∀ j, j + 1 < n → room j = true) :
    k = if room (n - 1) then n else n - 1 := by
  rcases Nat.lt_or_eq_of_le hk with hlt | rfl
  · have hlast : k = n - 1 := by
      by_contra hne
      have hfail := hfails k le_rfl hlt
      rw [hbefore k (by omega)] at hfail
      exact nomatch hfail
    rw [← hlast, hfails k le_rfl hlt, if_neg (by decide)]
  · rw [hrooms (k - 1) (by omega), if_pos rfl]

theorem data_kept_of_block {k : Nat} (hqueued : unsent c = some queued) (hk : k ≤ c.mailText.length)
    (hpos : 1 ≤ k) (hrooms : ∀ j < k, room j = true)
    (hfails : ∀ j, k ≤ j → j < c.mailText.length → room j = false)
    (htext : concatMailText room c.mailText = some (some (stringBytes (c.mailText.take k)))) :
    Kept room behind nextState c queued .data ↔
      GivesUp room c .data ∨ Complete room behind c .data := by
  have hiff (hbefore : ∀ j, j + 1 < c.mailText.length → room j = true) :
      cstr behind = stringBytes (c.mailText.drop k) ↔
        if room (c.mailText.length - 1) then cstr behind = []
        else cstr behind = stringBytes (c.mailText.drop (c.mailText.length - 1)) := by
    rw [text_end hk hpos hrooms hfails hbefore]
    split
    · simp [stringBytes]
    · rfl
  constructor
  · intro hkept
    have hbefore := dataCalls_text hkept.calls
    obtain ⟨state, c', hrun, hunsent⟩ := hkept.result
    have hblock : BlockRoom room c.mailText.length := by
      by_contra hno
      simp [handleData_dead htext hno hrun] at hunsent
    obtain ⟨-, rfl⟩ := Prod.mk.inj
      (Option.some.inj (hrun.symm.trans (handleData_block htext hblock hqueued)))
    rw [unsent_sending] at hunsent
    refine .inr ⟨hbefore, hblock, (hiff hbefore).mp ?_⟩
    rcases hunsent with hsame | hcomplete
    · simp [ascii] at hsame
    · exact block_complete_iff.mp (Option.some.inj hcomplete)
  · rintro ((hzero | ⟨hone, hfirst⟩) | ⟨hbefore, hblock, hbehind⟩)
    · omega
    · rw [hrooms 0 hpos] at hfirst
      exact nomatch hfirst
    · have hcalls : dataCalls room behind c = partCalls room 0 (none, 0) c.mailText ++
          blockCalls room behind c (stringBytes (c.mailText.take k)) := by
        rw [dataCalls, htext]
        rfl
      refine ⟨fun call hcall => ?_, _, _, handleData_block htext hblock hqueued, .inr ?_⟩
      · change call ∈ dataCalls room behind c at hcall
        rw [hcalls] at hcall
        rcases List.mem_append.mp hcall with hcall | hcall
        · exact (textCalls_sound_iff room c.mailText).mpr hbefore call hcall
        · exact blockCalls_sound hblock hqueued call hcall
      · rw [unsent_sending]
        exact congrArg some (block_complete_iff.mpr ((hiff hbefore).mpr hbehind))

theorem data_kept_iff (hqueued : unsent c = some queued) :
    Kept room behind nextState c queued .data ↔
      GivesUp room c .data ∨ Complete room behind c .data := by
  rcases concatParts_cases room c.mailText with ⟨k, hk, hrooms, hfails⟩ | ⟨-, j, hj, hfail⟩
  · have htext := concatMailText_split hk hrooms hfails
    rcases Nat.eq_zero_or_pos k with rfl | hpos
    · exact data_kept_of_none hqueued (fun j hj => hfails j (Nat.zero_le j) hj) htext
    · rw [built_take hpos hk] at htext
      exact data_kept_of_block hqueued hk hpos hrooms hfails htext
  · -- a call follows a bad length
    have hnot (hbefore : ∀ j, j + 1 < c.mailText.length → room j = true) : False := by
      rw [hbefore j hj] at hfail
      exact nomatch hfail
    refine iff_of_false (fun hkept => hnot (dataCalls_text hkept.calls)) fun hharmless => ?_
    rcases hharmless with (hzero | ⟨hone, -⟩) | ⟨hbefore, -⟩
    · omega
    · omega
    · exact hnot hbefore

end Data

section Ints
variable {room : Nat → Bool} {behind : Bytes} {nextState : State} {c : Conn} {queued text : Bytes}
  {handler : Handler}

theorem parts_ne_nil (c : Conn) (handler : Handler) : handler.parts c ≠ [] := by
  cases handler <;> simp [Handler.parts]

theorem Handler.eq_queue (h : handler ≠ .data) :
    handler.run room behind nextState c = queue room nextState (handler.parts c) c ∧
      handler.calls room behind c = queueCalls room (handler.parts c) c ∧
      ¬GivesUp room c handler ∧
      (Complete room behind c handler ↔ ∀ k ≤ (handler.parts c).length, room k = true) := by
  cases handler with
  | data => exact absurd rfl h
  | _ => exact ⟨rfl, rfl, id, Iff.rfl⟩

theorem kept_iff (hqueued : unsent c = some queued) :
    Kept room behind nextState c queued handler ↔
      GivesUp room c handler ∨ Complete room behind c handler := by
  by_cases hdata : handler = .data
  · rw [hdata]
    exact data_kept_iff hqueued
  · obtain ⟨hrun, hcalls, hnot, hcomplete⟩ := @Handler.eq_queue room behind nextState c handler hdata
    rw [or_iff_right hnot, hcomplete, ← queue_kept_iff (parts_ne_nil c handler) hqueued, ← hcalls,
      ← hrun]
    exact ⟨fun h => ⟨h.calls, h.result⟩, fun h => ⟨h.1, h.2⟩⟩

/-- The lengths of the calls are right or the error value, and no buffer is longer than what
it is made of. -/
theorem partCalls_len {k : Nat} {comm : Option Bytes} {len : Int} {parts : List Bytes}
    (hlen : len = (comm.elim 0 List.length : Nat) ∨ len = -1) :
    ∀ call ∈ partCalls room k (comm, len) parts, (call.2 = call.1 ∨ call.2 = -1) ∧
      call.1 ≤ comm.elim 0 List.length + (stringBytes parts).length := by
  induction parts generalizing k comm len with
  | nil => simp [partCalls]
  | cons part parts ih =>
    intro call hcall
    have hbytes : (stringBytes (part :: parts)).length =
        (cstr part).length + (stringBytes parts).length := by simp [stringBytes]
    rcases List.mem_cons.mp hcall with rfl | hcall
    · exact ⟨hlen, Nat.le_add_right _ _⟩
    · cases hroom : room k with
      | false =>
        simp only [hroom, concatDynamicStrings, Bool.false_eq_true, if_false, Option.elim_some] at hcall
        obtain ⟨hright, hle⟩ := ih (.inr rfl) call hcall
        exact ⟨hright, by omega⟩
      | true =>
        cases hleft : memcpyFrom comm len with
        | none => simp [hroom, concatDynamicStrings, hleft] at hcall
        | some left =>
          rw [hroom, concatDynamicStrings_eq hleft (memcpyFrom_cstr part), Option.elim_some] at hcall
          obtain ⟨hright, hle⟩ := ih (.inl rfl) call hcall
          have hshort := memcpyFrom_le hleft
          simp only [Option.elim_some, List.length_append] at hle
          exact ⟨hright, by omega⟩

theorem blockCalls_len (hqueued : unsent c = some queued) :
    ∀ call ∈ blockCalls room behind c text, (call.2 = call.1 ∨ call.2 = -1) ∧
      call.1 ≤ max (cstr (text ++ behind)).length queued.length := by
  have hsend : ((sendCall c).2 = (sendCall c).1 ∨ (sendCall c).2 = -1) ∧
      (sendCall c).1 ≤ max (cstr (text ++ behind)).length queued.length := by
    refine ⟨.inl (sendCall_sound hqueued), ?_⟩
    rw [sendCall, hqueued]
    exact Nat.le_max_right _ _
  intro call hcall
  rcases List.mem_cons.mp hcall with rfl | hcall
  · exact ⟨.inl rfl, Nat.zero_le _⟩
  obtain ⟨comm, newLen, hconcat, hcomm⟩ : ∃ comm newLen,
      concatDynamicStrings (room c.mailText.length) none (some (text ++ behind)) 0
        (strlen (text ++ behind)) = some (comm, newLen) ∧
      (newLen = (comm.elim 0 List.length : Nat) ∨ newLen = -1) ∧
        comm.elim 0 List.length ≤ (cstr (text ++ behind)).length := by
    cases room c.mailText.length with
    | false => exact ⟨none, -1, rfl, .inr rfl, Nat.zero_le _⟩
    | true =>
      exact ⟨_, _, concatDynamicStrings_eq (memcpyFrom_zero none) (memcpyFrom_cstr (text ++ behind)),
        .inl rfl, le_rfl⟩
  rw [hconcat, Option.elim_some] at hcall
  rcases List.mem_cons.mp hcall with rfl | hcall
  · exact ⟨hcomm.1, hcomm.2.trans (Nat.le_max_left _ _)⟩
  · cases hdot : concatDynamicStrings (room (c.mailText.length + 1)) comm (some (ascii "\r\n.\r\n"))
      newLen 5 with
    | none => simp [hdot] at hcall
    | some r =>
      rw [hdot] at hcall
      obtain rfl := List.mem_singleton.mp hcall
      exact hsend

theorem Handler.calls_len (hqueued : unsent c = some queued) :
    ∀ call ∈ handler.calls room behind c, call.2 = call.1 ∨ call.2 = -1 := by
  have hparts (parts : List Bytes) : ∀ call ∈ partCalls room 0 (none, 0) parts,
      call.2 = call.1 ∨ call.2 = -1 := fun call hcall => (partCalls_len (.inl rfl) call hcall).1
  intro call hcall
  by_cases hdata : handler = .data
  · rw [hdata] at hcall
    rcases List.mem_append.mp hcall with hcall | hcall
    · exact hparts _ call hcall
    · cases htext : concatMailText room c.mailText with
      | none => simp [htext] at hcall
      | some text =>
        cases text with
        | none => simp [htext] at hcall
        | some text =>
          rw [htext] at hcall
          exact (blockCalls_len hqueued call hcall).1
  · rw [(@Handler.eq_queue room behind .init c handler hdata).2.1] at hcall
    rcases List.mem_append.mp hcall with hcall | hcall
    · exact hparts _ call hcall
    · cases hconcat : concatParts room 0 (none, 0) (handler.parts c) with
      | none => simp [hconcat] at hcall
      | some comm =>
        rw [hconcat] at hcall
        obtain rfl := List.mem_singleton.mp hcall
        exact .inl (sendCall_sound hqueued)

theorem queueKept_iff_kept (hqueued : unsent c = some queued) :
    QueueKept room behind nextState c queued handler ↔
      Kept room behind nextState c queued handler ∧
        (∀ call ∈ handler.calls room behind c, call.1 < 2 ^ 31) ∧
        ∀ state c', handler.run room behind nextState c = some (state, c') → c'.toSend < 2 ^ 31 := by
  have hcall (call : Nat × Int) (hmem : call ∈ handler.calls room behind c) :
      toInt call.2 = call.1 ↔ call.2 = call.1 ∧ call.1 < 2 ^ 31 := by
    rcases Handler.calls_len hqueued call hmem with hexact | herror
    · rw [hexact, toInt_natCast_iff, and_iff_right rfl]
    · have hneg : toInt (-1) = -1 := by decide
      rw [herror, hneg]
      omega
  constructor
  · intro h
    obtain ⟨state, c', hrun, hint, hunsent⟩ := h.result
    refine ⟨⟨fun call hmem => ((hcall call hmem).mp (h.calls call hmem)).1, state, c', hrun, hunsent⟩,
      fun call hmem => ((hcall call hmem).mp (h.calls call hmem)).2, fun state' c'' hrun' => ?_⟩
    obtain ⟨-, rfl⟩ := Prod.mk.inj (Option.some.inj (hrun.symm.trans hrun'))
    rw [← hint]
    exact toInt_lt _
  · rintro ⟨h, hbuffers, hresult⟩
    obtain ⟨state, c', hrun, hunsent⟩ := h.result
    have hpos : 0 ≤ c'.toSend := by
      rcases hunsent with hunsent | hunsent <;>
        exact (memcpyFrom_eq hunsent) ▸ Int.natCast_nonneg _
    exact ⟨fun call hmem => (hcall call hmem).mpr ⟨h.calls call hmem, hbuffers call hmem⟩, state, c',
      hrun, toInt_eq (by omega) (hresult state c' hrun), hunsent⟩

theorem givesUp_kept (hqueued : unsent c = some queued) (hint : c.toSend < 2 ^ 31)
    (h : GivesUp room c handler) : QueueKept room behind nextState c queued handler := by
  cases handler with
  | data =>
    have htext : concatMailText room c.mailText = some none ∧
        ∀ call ∈ partCalls room 0 (none, 0) c.mailText, call.1 = 0 := by
      rcases h with hzero | ⟨hone, hfail⟩
      · simp [List.length_eq_zero_iff.mp hzero, concatMailText, concatParts, partCalls]
      · obtain ⟨line, hline⟩ := List.length_eq_one_iff.mp hone
        simp [hline, concatMailText, concatParts, partCalls, concatDynamicStrings, hfail]
    refine (queueKept_iff_kept hqueued).mpr ⟨(kept_iff hqueued).mpr (.inl h), fun call hmem => ?_,
      fun state c' hrun => ?_⟩
    · change call ∈ dataCalls room behind c at hmem
      rw [dataCalls, htext.1, Option.elim_some, Option.elim_none, List.append_nil] at hmem
      rw [htext.2 call hmem]
      decide
    · change handleData room behind nextState c = _ at hrun
      obtain ⟨-, rfl⟩ := Prod.mk.inj (Option.some.inj ((handleData_none htext.1).symm.trans hrun))
      exact hint
  | _ => exact h.elim

/-- A handler that completes its command appends it, and all buffers on the way are parts of
what is queued in the end. -/
theorem complete_runs (hqueued : unsent c = some queued) (hgoes : ¬GivesUp room c handler)
    (h : Complete room behind c handler) :
    handler.run room behind nextState c =
        some (nextState, sending c nextState (queued ++ stringBytes (handler.parts c))) ∧
      ∀ call ∈ handler.calls room behind c,
        call.1 ≤ (queued ++ stringBytes (handler.parts c)).length := by
  have hsend : (sendCall c).1 = queued.length := by rw [sendCall, hqueued]; rfl
  by_cases hdata : handler = .data
  · subst hdata
    obtain ⟨hbefore, hblock, hbehind⟩ := h
    have hpos : 0 < c.mailText.length := Nat.pos_of_ne_zero fun hzero => hgoes (.inl hzero)
    obtain ⟨k, hk, hone, hrooms, hfails, hrest⟩ : ∃ k ≤ c.mailText.length, 1 ≤ k ∧
        (∀ j < k, room j = true) ∧ (∀ j, k ≤ j → j < c.mailText.length → room j = false) ∧
        cstr behind = stringBytes (c.mailText.drop k) := by
      cases hlast : room (c.mailText.length - 1) with
      | true =>
        refine ⟨c.mailText.length, le_rfl, hpos, fun j hj => ?_, fun j hle hlt => by omega, ?_⟩
        · rcases Nat.lt_or_ge (j + 1) c.mailText.length with hlt | hge
          · exact hbefore j hlt
          · rwa [show j = c.mailText.length - 1 by omega]
        · simpa [hlast, stringBytes] using hbehind
      | false =>
        have hmany : c.mailText.length ≠ 1 := fun heq => hgoes (.inr ⟨heq, by simpa [heq] using hlast⟩)
        refine ⟨c.mailText.length - 1, by omega, by omega, fun j hj => hbefore j (by omega),
          fun j hle hlt => ?_, by simpa [hlast] using hbehind⟩
        rwa [show j = c.mailText.length - 1 by omega]
    have htext := concatMailText_split hk hrooms hfails
    rw [built_take hone hk] at htext
    have hrun := @handleData_block room behind nextState c queued _ htext hblock hqueued
    have hwhole := @block_complete_iff behind queued c.mailText k |>.mpr hrest
    rw [hwhole] at hrun
    refine ⟨hrun, fun call hcall => ?_⟩
    change call ∈ dataCalls room behind c at hcall
    rw [dataCalls, htext] at hcall
    rcases List.mem_append.mp hcall with hcall | hcall
    · have hle := (partCalls_len (.inl rfl) call hcall).2
      simp only [Option.elim_none, Nat.zero_add] at hle
      simp only [Handler.parts, stringBytes_append, List.length_append]
      omega
    · have hle := (blockCalls_len hqueued call hcall).2
      have hlength := congrArg List.length hwhole
      simp only [Handler.parts, List.length_append] at hlength ⊢
      omega
  · obtain ⟨hrun, hcalls, -, hcomplete⟩ := @Handler.eq_queue room behind nextState c handler hdata
    obtain ⟨hparts, hqueue⟩ := queue_complete (parts_ne_nil c handler) hqueued (hcomplete.mp h)
    refine ⟨hrun.trans hqueue, fun call hcall => ?_⟩
    rw [hcalls, queueCalls, hparts] at hcall
    rw [List.length_append]
    rcases List.mem_append.mp hcall with hcall | hcall
    · have hle := (partCalls_len (.inl rfl) call hcall).2
      simp only [Option.elim_none, Nat.zero_add] at hle
      omega
    · obtain rfl := List.mem_singleton.mp hcall
      omega

/-- A connection survives a handler exactly if none of its calls fails, or the text of
a mail is all there in the end; and the queue can be counted in an `int`. -/
theorem queue_kept_under_failures_iff (room : Nat → Bool) (behind : Bytes) (nextState : State)
    (c : Conn) (queued : Bytes) (handler : Handler) (hqueued : unsent c = some queued)
    (hint : c.toSend < 2 ^ 31) :
    QueueKept room behind nextState c queued handler ↔ Harmless room behind c handler := by
  by_cases hgives : GivesUp room c handler
  · exact iff_of_true (givesUp_kept hqueued hint hgives) (.inl hgives)
  rw [Harmless, or_iff_right hgives, queueKept_iff_kept hqueued, kept_iff hqueued,
    or_iff_right hgives]
  refine and_congr_right fun hcomplete => ?_
  obtain ⟨hrun, hcalls⟩ := @complete_runs room behind nextState c queued handler hqueued hgives hcomplete
  have hcounts : Counts c handler ↔ (queued ++ stringBytes (handler.parts c)).length < 2 ^ 31 := by
    have hlen : c.toSend = queued.length := memcpyFrom_eq hqueued
    rw [Counts, hlen, List.length_append]
    omega
  rw [hcounts]
  constructor
  · rintro ⟨-, hresult⟩
    have hlt := hresult _ _ hrun
    simp only [sending] at hlt
    omega
  · refine fun hlt => ⟨fun call hcall => (hcalls call hcall).trans_lt hlt, fun state c' hrun' => ?_⟩
    obtain ⟨-, rfl⟩ := Prod.mk.inj (Option.some.inj (hrun.symm.trans hrun'))
    simp only [sending]
    omega

end Ints

def waitingConn : Conn :=
  sending { newConn with mailText := [ascii "a\r\n", ascii "b\r\n"] } .sRt (ascii "DATA\r\n")

/-- The call for the last line fails: the queue is kept where the memory behind the block happens
to hold that line, and not where it starts with a NUL. -/
theorem queue_kept_under_failures_iff_data :
    QueueKept (fun k => k ≠ 1) (ascii "b\r\n" ++ [nul]) .sData waitingConn (ascii "DATA\r\n") .data ∧
      ¬QueueKept (fun k => k ≠ 1) [nul] .sData waitingConn (ascii "DATA\r\n") .data := by
  have hqueued : unsent waitingConn = some (ascii "DATA\r\n") := by decide
  constructor
  · refine (queue_kept_under_failures_iff _ _ _ _ _ _ hqueued (by decide)).mpr
      (.inr ⟨⟨fun k hk => ?_, by decide, by decide⟩, by decide⟩)
    have hlines : waitingConn.mailText.length = 2 := by decide
    have hzero : k = 0 := by omega
    simp [hzero]
  · intro hkept
    rcases (queue_kept_under_failures_iff _ _ _ _ _ _ hqueued (by decide)).mp hkept with
      hgives | ⟨⟨-, -, hbehind⟩, -⟩
    · exact absurd hgives (by decide)
    · exact absurd hbehind (by decide)

/-- The command is put together, and there is no memory for the send buffer. -/
theorem fails_to_send : unsent newConn = some [] ∧
    (∃ c', (Handler.quit).run (fun k => k = 0) [] .sQuit newConn = some (.sQuit, c') ∧ c'.toSend = -1) ∧
    ¬QueueKept (fun k => k = 0) [] .sQuit newConn [] .quit := by
  have hqueued : unsent newConn = some [] := by decide
  refine ⟨hqueued, ⟨_, rfl, rfl⟩, fun hkept => ?_⟩
  have hrooms := ((kept_iff hqueued).mp ((queueKept_iff_kept hqueued).mp hkept).1).resolve_left id
  exact absurd (hrooms 1 le_rfl) (by decide)

end SmtpMta.Client.FailedCalls
