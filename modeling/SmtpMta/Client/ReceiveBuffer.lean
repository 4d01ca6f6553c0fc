import SmtpMta.Client.ReplyFraming

/-! The receive buffer between the calls that change it. Its bytes are counted,
but a line is searched for up to a NUL, wherever that stands. -/
namespace SmtpMta.Client.ReceiveBuffer
open Library.CString Library.Crlf Library.Trace Common.SharedStrings Fsm ReplyParser Transfer
  ReplyFraming

structure Buffer where
  block : Option Bytes
  toReceive : Int

def bufferOf (c : Conn) : Buffer := ⟨c.receiveBuf, c.toReceive⟩

/-- `append` is the call in `conn_read`, `parse` the one in `process_conn_read`. -/
inductive BufferCall where
  | append (room : Bool) (piece : Bytes)
  | parse (behind : Bytes) (room : Bool)

/-- A run is a sequence of calls on one buffer. -/
def bufferMachine : Machine Buffer BufferCall (Option Parsed) where
  step s call := match call with
    | .append room piece => do
        let (block, toReceive) ←
          concatDynamicStrings room s.block (some piece) s.toReceive piece.length
        some (none, ⟨block, toReceive⟩)
    | .parse behind room => do
        let buf ← s.block
        let parsed ← tryParseMessagePart behind room buf s.toReceive
        some (some parsed, ⟨some parsed.buf, parsed.newLen⟩)

def Takes (buf : Bytes) (bufsize : Int) (p : Parsed) : Prop :=
  let held := buf.take bufsize.toNat
  match (splitCrlf held).1 with
  | [] => p = ⟨none, 0, bufsize, buf⟩
  | line :: _ =>
      p.message = some (line ++ crlf) ∧ p.len = (line ++ crlf).length ∧ 0 < p.len ∧
        p.len ≤ bufsize ∧ p.newLen = bufsize - p.len ∧ 0 ≤ p.newLen ∧
        p.buf.take p.newLen.toNat = held.drop (line ++ crlf).length

/-- The search ends where the count does: the first line has no NUL, or without
a line the string has no pair behind the counted bytes either. -/
def Within (behind : Bytes) (room : Bool) (buf : Bytes) (bufsize : Int) : Prop :=
  match (splitCrlf (buf.take bufsize.toNat)).1 with
  | [] => NoCrlf (cstr (buf ++ behind))
  | line :: _ => NulFree line ∧ room = true

/-- The call does not fail, and does what it is for. -/
def Served (s : Buffer) : BufferCall → Prop
  | .append _ _ => True
  | .parse behind room => ∃ buf p, s.block = some buf ∧
      tryParseMessagePart behind room buf s.toReceive = some p ∧ Takes buf s.toReceive p

def Searchable (s : Buffer) : BufferCall → Prop
  | .append _ _ => True
  | .parse behind room => ∃ buf, s.block = some buf ∧ Within behind room buf s.toReceive

section TryParse
variable {behind buf : Bytes} {room : Bool} {bufsize : Int}

theorem takes_unfinished (h : NoCrlf (buf.take bufsize.toNat)) :
    (∃ p, tryParseMessagePart behind room buf bufsize = some p ∧ Takes buf bufsize p) ↔
      Within behind room buf bufsize := by
  simp only [Takes, Within, splitCrlf_eq_of_noCrlf h]
  rcases exists_first_line (cstr (buf ++ behind)) with hnone | ⟨line, rest, hsplit, hline⟩
  · have hfound : strstr (buf ++ behind) (ascii "\r\n") = none := strstr_crlf_eq_none hnone
    exact iff_of_true ⟨_, by simp only [tryParseMessagePart, hfound], rfl⟩ hnone
  · have hfound : strstr (buf ++ behind) (ascii "\r\n") = some line.length :=
      strstr_crlf_line hline hsplit
    refine iff_of_false ?_ fun hnone => hnone (hsplit ▸ ⟨line, rest, rfl⟩)
    rintro ⟨p, hparse, rfl⟩
    simp only [tryParseMessagePart, hfound] at hparse
    split_ifs at hparse
    · simp at hparse
    · simp at hparse

theorem tryParse_hidden {line : Bytes} (hline : NoCrlf line) (hnul : ¬NulFree line) (text : Bytes) :
    tryParseMessagePart behind room (line ++ text) bufsize =
      some ⟨none, 0, bufsize, line ++ text⟩ := by
  have hstop : cstr (line ++ text ++ behind) = cstr line := by
    rw [List.append_assoc]
    exact cstr_append_of_nul hnul
  have hnone : NoCrlf (cstr (line ++ text ++ behind)) :=
    hstop ▸ hline.of_sub (List.takeWhile_prefix _).isInfix
  have hfound : strstr (line ++ text ++ behind) (ascii "\r\n") = none := strstr_crlf_eq_none hnone
  simp only [tryParseMessagePart, hfound]

theorem takes_line {line rest : Bytes} (hline : NoCrlf line)
    (hheld : buf.take bufsize.toNat = line ++ crlf ++ rest) (hle : bufsize ≤ buf.length) :
    (∃ p, tryParseMessagePart behind room buf bufsize = some p ∧ Takes buf bufsize p) ↔
      Within behind room buf bufsize := by
  have hsplit : (splitCrlf (line ++ crlf ++ rest)).1 = line :: (splitCrlf rest).1 := by
    rw [splitCrlf_line hline]
  simp only [Takes, Within, hheld, hsplit]
  obtain ⟨stale, hbuf⟩ : ∃ stale, buf = line ++ crlf ++ rest ++ stale :=
    ⟨buf.drop bufsize.toNat, by rw [← hheld, List.take_append_drop]⟩
  have hsize : bufsize = ((line ++ crlf ++ rest).length : Int) := by
    have hlength := congrArg List.length hheld
    rw [List.length_take] at hlength
    have hpos : 0 < (line ++ crlf ++ rest).length :=
      List.length_pos_iff.mpr (by simp [crlf])
    omega
  by_cases hfree : NulFree line
  · cases room with
    | true =>
      refine iff_of_true ⟨_, by rw [hsize, hbuf]; exact tryParse_line hline hfree, rfl, rfl, ?_⟩
        ⟨hfree, rfl⟩
      simp only [hsize, List.length_append, crlf, List.length_cons, List.length_nil]
      refine ⟨by omega, by omega, by omega, by omega, ?_⟩
      simp
    | false =>
      refine iff_of_false ?_ (by simp)
      rintro ⟨p, hparse, hmessage, -⟩
      rw [hbuf, tryParse_line_oom hline hfree] at hparse
      obtain rfl := Option.some.inj hparse
      simp at hmessage
  · refine iff_of_false ?_ fun h => hfree h.1
    rintro ⟨p, hparse, hmessage, -⟩
    rw [hbuf, List.append_assoc, List.append_assoc, tryParse_hidden hline hfree] at hparse
    obtain rfl := Option.some.inj hparse
    simp at hmessage

end TryParse

/-- The count stays inside the block. -/
def Fits (s : Buffer) : Prop :=
  ∀ buf, s.block = some buf → s.toReceive ≤ buf.length

theorem served_iff {s : Buffer} (h : Fits s) (call : BufferCall) : Served s call ↔ Searchable s call := by
  cases call with
  | append room piece => exact Iff.rfl
  | parse behind room =>
    have hcall (buf : Bytes) (hbuf : s.block = some buf) :
        (∃ p, tryParseMessagePart behind room buf s.toReceive = some p ∧ Takes buf s.toReceive p) ↔
          Within behind room buf s.toReceive := by
      rcases splitCrlf_cases (buf.take s.toReceive.toNat) with
        ⟨hnone, -⟩ | ⟨line, rest, hline, hheld, -⟩
      · exact takes_unfinished hnone
      · exact takes_line hline hheld (h buf hbuf)
    constructor
    · rintro ⟨buf, p, hbuf, hparse, htakes⟩
      exact ⟨buf, hbuf, (hcall buf hbuf).mp ⟨p, hparse, htakes⟩⟩
    · rintro ⟨buf, hbuf, hwithin⟩
      obtain ⟨p, hparse, htakes⟩ := (hcall buf hbuf).mpr hwithin
      exact ⟨buf, p, hbuf, hparse, htakes⟩

theorem tryParse_fits {behind buf : Bytes} {room : Bool} {bufsize : Int} {p : Parsed}
    (hle : bufsize ≤ buf.length) (h : tryParseMessagePart behind room buf bufsize = some p) :
    p.newLen ≤ p.buf.length := by
  unfold tryParseMessagePart at h
  dsimp only at h
  split at h
  · obtain rfl := Option.some.inj h
    exact hle
  · rename_i found hfound
    split_ifs at h with hroom hbad
    · obtain rfl := Option.some.inj h
      simp only [not_or, Int.not_lt] at hbad
      simp only [List.length_append, List.length_take, List.length_drop]
      omega
    · obtain rfl := Option.some.inj h
      exact hle

theorem Fits.step {s s' : Buffer} {call : BufferCall} {output : Option Parsed} (h : Fits s)
    (hstep : bufferMachine.step s call = some (output, s')) : Fits s' := by
  cases call with
  | append room piece =>
    obtain ⟨⟨block, toReceive⟩, hconcat, hstep⟩ := Option.bind_eq_some_iff.mp hstep
    obtain ⟨-, rfl⟩ := Prod.mk.inj (Option.some.inj hstep)
    intro buf hbuf
    obtain rfl : block = some buf := hbuf
    cases room with
    | false =>
      obtain ⟨-, rfl⟩ := Prod.mk.inj (Option.some.inj hconcat)
      dsimp only
      omega
    | true =>
      obtain ⟨left, hleft, hconcat⟩ := Option.bind_eq_some_iff.mp hconcat
      obtain ⟨right, hright, hconcat⟩ := Option.bind_eq_some_iff.mp hconcat
      obtain ⟨hblock, rfl⟩ := Prod.mk.inj (Option.some.inj hconcat)
      obtain rfl := Option.some.inj hblock
      rw [memcpyFrom_eq hleft, memcpyFrom_eq hright, List.length_append]
      dsimp only
      omega
  | parse behind room =>
    obtain ⟨buf, hbuf, hstep⟩ := Option.bind_eq_some_iff.mp hstep
    obtain ⟨p, hparse, hstep⟩ := Option.bind_eq_some_iff.mp hstep
    obtain ⟨-, rfl⟩ := Prod.mk.inj (Option.some.inj hstep)
    rintro buf' ⟨⟩
    exact tryParse_fits (h buf hbuf) hparse

/-- In every run from a new buffer, no call fails and each takes out the first
line of the counted bytes, as far as every search ends where the count does. -/
theorem calls_served_iff (block : Option Bytes) (calls : List BufferCall) :
    bufferMachine.Throughout Served ⟨block, 0⟩ calls ↔
      bufferMachine.Throughout Searchable ⟨block, 0⟩ calls := by
  have hfits : Fits ⟨block, 0⟩ := fun buf _ => Int.natCast_nonneg _
  exact Machine.throughout_congr (fun _ _ _ _ => Fits.step) (fun _ call h => served_iff h call) hfits
    calls

/-- A continuation line that has been taken out is found again in the empty buffer. -/
theorem stale_line_served : ¬bufferMachine.Throughout Served (bufferOf newConn)
    [.append true (ascii "250-ok\r\n"), .parse [] true, .parse [] true] := by
  have happend : bufferMachine.step (bufferOf newConn) (.append true (ascii "250-ok\r\n")) =
      some (none, ⟨some (ascii "250-ok\r\n"), 8⟩) := rfl
  have hparse : bufferMachine.step ⟨some (ascii "250-ok\r\n"), 8⟩ (.parse [] true) =
      some (some ⟨some (ascii "250-ok\r\n"), 8, 0, ascii "250-ok\r\n"⟩,
        ⟨some (ascii "250-ok\r\n"), 0⟩) := rfl
  have hfault : tryParseMessagePart [] true (ascii "250-ok\r\n") 0 = none := rfl
  rintro ⟨-, h⟩
  rw [happend] at h
  obtain ⟨-, h⟩ := h.resolve_left (by simp [bufferMachine])
  rw [hparse] at h
  obtain ⟨⟨buf, p, hbuf, hserved, -⟩, -⟩ := h.resolve_left (by simp [bufferMachine])
  obtain rfl := Option.some.inj hbuf
  simp [hfault] at hserved

section Calls
variable {s : Surroundings} {turns : Nat → Turn} {c c' : Conn}

theorem bufferOf_deliver (s : Surroundings) (ret : Int) (event : Event) (c : Conn) :
    bufferOf (deliver s ret event c).2 = bufferOf c := by
  obtain ⟨sendBuf, toSend, hc⟩ := deliver_keeps s ret event c
  rw [hc]
  rfl

theorem readReply_calls {bound k : Nat} {messages messages' : List Bytes} {ret : Int}
    {event : Option Event}
    (h : readReply turns bound k messages c = some (ret, event, messages', c')) :
    ∃ n history, bufferMachine.exec (bufferOf c)
        ((List.range' k n).map fun k => .parse (turns k).behind (turns k).room) =
      some (history, bufferOf c') := by
  induction bound generalizing k messages c with
  | zero => cases h
  | succ bound ih =>
    obtain ⟨buf, hbuf, h⟩ := Option.bind_eq_some_iff.mp h
    obtain ⟨p, hparse, h⟩ := Option.bind_eq_some_iff.mp h
    have hstep : bufferMachine.step (bufferOf c) (.parse (turns k).behind (turns k).room) =
        some (some p, ⟨some p.buf, p.newLen⟩) := by
      simp [bufferMachine, bufferOf, hbuf, hparse]
    have hlast : ∃ history, bufferMachine.exec (bufferOf c)
        ((List.range' k 1).map fun k => .parse (turns k).behind (turns k).room) =
          some (history, ⟨some p.buf, p.newLen⟩) :=
      ⟨_, Machine.exec_goes hstep rfl rfl⟩
    dsimp only at h
    split at h
    · cases h
      exact ⟨1, hlast⟩
    split at h
    · cases h
      exact ⟨1, hlast⟩
    obtain ⟨message, -, h⟩ := Option.bind_eq_some_iff.mp h
    split at h
    · cases h
      exact ⟨1, hlast⟩
    split at h
    · obtain ⟨n, history, hexec⟩ := ih h
      have hgoes := Machine.exec_goes hstep rfl hexec
      exact ⟨n + 1, _, by rw [List.range'_succ, List.map_cons]; exact hgoes⟩
    · cases h
      exact ⟨1, hlast⟩

theorem processConnRead_calls {recv : Option Bytes} {o : Output}
    (h : processConnRead s recv c = some (o, c')) :
    ∃ calls history, bufferMachine.exec (bufferOf c) calls = some (history, bufferOf c') := by
  obtain ⟨⟨readLen, c₁⟩, hread, h⟩ := Option.bind_eq_some_iff.mp h
  -- without bytes the buffer is not called
  have hidle (hsame : c₁ = c) {ret : Int} {event : Event} {messages : List Bytes} {ending : Ending}
      (hend : some (Output.mk ending (some event) messages, (deliver s ret event c₁).2) =
        some (o, c')) :
      ∃ calls history, bufferMachine.exec (bufferOf c) calls = some (history, bufferOf c') := by
    obtain ⟨-, rfl⟩ := Prod.mk.inj (Option.some.inj hend)
    exact ⟨[], [], by rw [bufferOf_deliver, hsame]; rfl⟩
  cases recv with
  | none =>
    obtain ⟨rfl, rfl⟩ := Prod.mk.inj (Option.some.inj hread)
    exact hidle rfl h
  | some piece =>
    cases piece with
    | nil =>
      obtain ⟨rfl, rfl⟩ := Prod.mk.inj (Option.some.inj hread)
      exact hidle rfl h
    | cons b piece =>
      obtain ⟨⟨receiveBuf, newLen⟩, hconcat, hread⟩ := Option.bind_eq_some_iff.mp hread
      obtain ⟨rfl, rfl⟩ := Prod.mk.inj (Option.some.inj hread)
      have hstep : bufferMachine.step (bufferOf c) (.append s.room (b :: piece)) =
          some (none, ⟨receiveBuf, newLen⟩) := by
        simp only [bufferMachine, bufferOf, hconcat, Option.bind_eq_bind, Option.bind_some]
      have hneg : ¬((b :: piece).length : Int) < 0 := by omega
      have hzero : ¬((b :: piece).length : Int) = 0 := by
        rw [List.length_cons]
        omega
      dsimp only at h
      rw [if_neg hneg, if_neg hzero] at h
      obtain ⟨⟨ret, event, messages, c₂⟩, hloop, h⟩ := Option.bind_eq_some_iff.mp h
      obtain ⟨n, history, hexec⟩ := readReply_calls hloop
      have hend : bufferOf c' = bufferOf c₂ := by
        dsimp only at h
        split at h
        · obtain ⟨-, rfl⟩ := Prod.mk.inj (Option.some.inj h)
          rfl
        · obtain ⟨-, rfl⟩ := Prod.mk.inj (Option.some.inj h)
          exact bufferOf_deliver ..
      exact ⟨_, _, hend ▸ Machine.exec_goes hstep rfl hexec⟩

end Calls

end SmtpMta.Client.ReceiveBuffer
