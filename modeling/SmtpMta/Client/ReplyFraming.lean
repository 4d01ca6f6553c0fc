import SmtpMta.Client.Transfer
import SmtpMta.Library.Crlf
import SmtpMta.Library.Trace

/-! How the parse loop frames the replies of a server. A call has to end with a
line that ends the loop: otherwise the loop runs on into the bytes of an
unfinished line, or into the stale bytes behind a finished one. -/
namespace SmtpMta.Client.ReplyFraming
open Library.CString Library.Crlf Library.Trace Common.SharedStrings Fsm ReplyParser Transfer

/-- The unread bytes stand at the start of the receive buffer, and stale ones
behind them. -/
def holding (c : Conn) (held stale : Bytes) (received : Int) : Conn :=
  { c with receiveBuf := some (held ++ stale), toReceive := held.length, received }

theorem exists_drop_of_cstr {block pre rest : Bytes} (h : cstr block = pre ++ rest) :
    ∃ block', block = pre ++ block' ∧ cstr block' = rest := by
  have hfree : NulFree pre := (nulFree_append.mp (h ▸ cstr_nulFree block)).1
  obtain ⟨more, hmore⟩ : cstr block <+: block := List.takeWhile_prefix _
  have hblock : block = pre ++ (rest ++ more) := by rw [← hmore, h, List.append_assoc]
  refine ⟨rest ++ more, hblock, ?_⟩
  rw [hblock, cstr_append hfree] at h
  exact List.append_cancel_left h

section TryParse

variable {behind held held' stale line : Bytes}

theorem strstr_line (hline : NoCrlf line) (hfree : NulFree line) (more : Bytes) :
    strstr (line ++ crlf ++ more) (ascii "\r\n") = some line.length := by
  have hfree' : NulFree (line ++ crlf) := nulFree_append.mpr ⟨hfree, by decide⟩
  exact strstr_crlf_line hline (cstr_append hfree')

theorem tryParse_line (hline : NoCrlf line) (hfree : NulFree line) :
    tryParseMessagePart behind true (line ++ crlf ++ held' ++ stale)
        ((line ++ crlf ++ held').length : Int) =
      some ⟨some (line ++ crlf), (line ++ crlf).length, held'.length,
        held' ++ (line ++ crlf ++ held' ++ stale).drop held'.length⟩ := by
  have hfound := strstr_line hline hfree (held' ++ stale ++ behind)
  have htext : line ++ crlf ++ held' ++ stale ++ behind =
      line ++ crlf ++ (held' ++ stale ++ behind) := by simp
  have hlen : (line ++ crlf).length = line.length + 2 := by simp [crlf]
  have hsize : ((line ++ crlf ++ held').length : Int) - ((line.length + 2 : Nat) : Int) =
      held'.length := by
    rw [List.length_append, hlen]
    push_cast
    omega
  have hfits : ¬((held'.length : Int) < 0 ∨
      ((line ++ crlf ++ held' ++ stale).length : Int) < ((line ++ crlf ++ held').length : Int)) := by
    simp only [List.length_append]
    push_cast
    omega
  simp only [tryParseMessagePart, htext, hfound, if_true, hsize, if_neg hfits]
  rw [← hlen, List.take_left, List.drop_left, Int.toNat_natCast, List.append_assoc held',
    List.take_left]

theorem tryParse_line_oom (hline : NoCrlf line) (hfree : NulFree line) (bufsize : Int) :
    tryParseMessagePart behind false (line ++ crlf ++ held' ++ stale) bufsize =
      some ⟨none, -1, bufsize, line ++ crlf ++ held' ++ stale⟩ := by
  have hfound := strstr_line hline hfree (held' ++ stale ++ behind)
  have htext : line ++ crlf ++ held' ++ stale ++ behind =
      line ++ crlf ++ (held' ++ stale ++ behind) := by simp
  simp only [tryParseMessagePart, htext, hfound, Bool.false_eq_true, if_false]

theorem strstr_behind (hno : NoCrlf (cstr held)) {more : Bytes} {found : Nat}
    (hfound : strstr (held ++ more) (ascii "\r\n") = some found) : held.length < found + 2 := by
  rcases exists_first_line (cstr (held ++ more)) with hnone | ⟨line, rest, hsplit, hline⟩
  · rw [show ascii "\r\n" = crlf from rfl, strstr_crlf_eq_none hnone] at hfound
    simp at hfound
  · rw [show ascii "\r\n" = crlf from rfl, strstr_crlf_line hline hsplit] at hfound
    obtain rfl : line.length = found := by simpa using hfound
    by_contra hle
    apply hno
    -- the pair would stand in the held bytes
    have hstart : line ++ crlf <+: held := by
      obtain ⟨rest', hrest, -⟩ := exists_drop_of_cstr hsplit
      refine List.prefix_of_prefix_length_le ⟨rest', hrest.symm⟩ (List.prefix_append held more) ?_
      simp only [List.length_append, crlf, List.length_cons, List.length_nil]
      omega
    have hfree : NulFree (line ++ crlf) := (nulFree_append.mp (hsplit ▸ cstr_nulFree _)).1
    obtain ⟨tail, rfl⟩ := hstart
    rw [cstr_append hfree]
    exact ⟨line, cstr tail, rfl⟩

/-- Without a finished line there is either no message, or the size of what is
left is negative. -/
theorem tryParse_unfinished (hno : NoCrlf (cstr held)) :
    tryParseMessagePart behind true (held ++ stale) held.length = none ∨
      (tryParseMessagePart behind true (held ++ stale) held.length =
          some ⟨none, 0, held.length, held ++ stale⟩ ∧ NoCrlf (cstr (held ++ stale ++ behind))) := by
  rcases exists_first_line (cstr (held ++ stale ++ behind)) with hnone | ⟨line, rest, hsplit, hline⟩
  · have hfound : strstr (held ++ stale ++ behind) (ascii "\r\n") = none := strstr_crlf_eq_none hnone
    exact .inr ⟨by simp only [tryParseMessagePart, hfound], hnone⟩
  · have hfound : strstr (held ++ stale ++ behind) (ascii "\r\n") = some line.length :=
      strstr_crlf_line hline hsplit
    have hbehind := strstr_behind hno (by rwa [List.append_assoc] at hfound)
    have hneg : (held.length : Int) - ((line.length + 2 : Nat) : Int) < 0 := by omega
    left
    simp only [tryParseMessagePart, hfound, if_true, hneg, true_or]

end TryParse

section Loop

/-- A turn of the parse loop on this line is the last one of its call. -/
def Ends (turn : Turn) (line : Bytes) : Prop :=
  turn.room = false ∨ processMessage turn.stray turn.num (line ++ crlf) ≠ 0

instance (turn : Turn) (line : Bytes) : Decidable (Ends turn line) :=
  inferInstanceAs (Decidable (_ ∨ _))

variable {turns : Nat → Turn} {bound k : Nat} {messages : List Bytes} {c : Conn}
  {held held' stale line : Bytes} {n : Int}

theorem readReply_line (hline : NoCrlf line) (hfree : NulFree line)
    (hheld : held = line ++ crlf ++ held') :
    readReply turns (bound + 1) k messages (holding c held stale n) =
      if (turns k).room then
        let res := processMessage (turns k).stray (turns k).num (line ++ crlf)
        let messages := messages ++ [line ++ crlf]
        let c := holding c held' ((held ++ stale).drop held'.length) (n + (line ++ crlf).length)
        if res < 0 then some (0, some .bad, messages, c)
        else if res = 0 then readReply turns bound (k + 1) messages c
        else some (0, some .ok, messages, c)
      else some (-1, some .error, messages, holding c held stale n) := by
  subst hheld
  rw [readReply]
  cases hroom : (turns k).room with
  | false =>
    simp only [holding, tryParse_line_oom hline hfree, Option.bind_eq_bind, Option.bind_some,
      if_true, Bool.false_eq_true, if_false]
  | true =>
    have hlen : ¬((line ++ crlf).length : Int) = -1 := by omega
    have hfull : strlen (line ++ crlf ++ (turns k).stray) ≠ 0 := by
      have hfree' : NulFree (line ++ crlf) := nulFree_append.mpr ⟨hfree, by decide⟩
      rw [strlen, cstr_append hfree']
      simp [crlf]
    simp only [holding, tryParse_line hline hfree, Option.bind_eq_bind, Option.bind_some, if_true,
      hlen, if_false, Option.elim_some, hfull, decide_false, Bool.false_eq_true, and_false]

/-- The turn on an unfinished line. Behind a finished line the buffer holds
stale lines, so that a pair is found there too. -/
theorem readReply_unfinished (hroom : (turns k).room = true) (hno : NoCrlf (cstr held))
    (hpair : held ≠ [] ∨ ¬NoCrlf (cstr stale)) :
    readReply turns (bound + 1) k messages (holding c held stale n) = none := by
  rw [readReply]
  rcases @tryParse_unfinished (turns k).behind held stale hno with hfault | ⟨hparsed, hnone⟩
  · simp only [holding, hroom, hfault, Option.bind_eq_bind, Option.bind_some, Option.bind_none]
  · have hne : held ≠ [] := by
      rintro rfl
      refine hpair.resolve_left (fun h => h rfl) (hnone.of_sub ?_)
      rw [List.nil_append]
      by_cases hfree : NulFree stale
      · rw [cstr_append hfree, cstr_of_nulFree hfree]
        exact (List.prefix_append _ _).isInfix
      · have hsame : cstr (stale ++ (turns k).behind) = cstr stale := cstr_append_of_nul hfree
        exact hsame ▸ List.infix_rfl
    have hsize : ¬(held.length : Int) = 0 := by simpa using hne
    have hlen : ¬(0 : Int) = -1 := by omega
    simp only [holding, hroom, hparsed, Option.bind_eq_bind, Option.bind_some, Option.bind_none,
      hlen, if_false, hsize, false_and]

theorem held_lines (held : Bytes) :
    NoCrlf (cstr held) ∨ ∃ line held', NoCrlf line ∧ NulFree line ∧ held = line ++ crlf ++ held' ∧
      (splitCrlf (cstr held)).1 = line :: (splitCrlf (cstr held')).1 := by
  rcases exists_first_line (cstr held) with hno | ⟨line, rest, hsplit, hline⟩
  · exact .inl hno
  · obtain ⟨held', hheld, hrest⟩ := exists_drop_of_cstr hsplit
    have hfree : NulFree (line ++ crlf) := (nulFree_append.mp (hsplit ▸ cstr_nulFree held)).1
    refine .inr ⟨line, held', hline, (nulFree_append.mp hfree).1, hheld, ?_⟩
    rw [hsplit, splitCrlf_line hline, hrest]

theorem readReply_ends_here (hline : NoCrlf line) (hfree : NulFree line)
    (hheld : held = line ++ crlf ++ held') (hends : Ends (turns k) line) :
    ∃ ret event lines held'' stale', readReply turns (bound + 1) k messages (holding c held stale n) =
        some (ret, some event, messages ++ lines.map (· ++ crlf),
          holding c held'' stale' (n + (joinCrlf lines []).length)) ∧
      lines <+: [line] ∧ held = joinCrlf lines held'' := by
  rw [readReply_line hline hfree hheld]
  cases hroom : (turns k).room with
  | false => exact ⟨-1, .error, [], held, stale, by simp, by simp, by simp⟩
  | true =>
    have hres : processMessage (turns k).stray (turns k).num (line ++ crlf) ≠ 0 :=
      hends.resolve_left (by simp [hroom])
    by_cases hbad : processMessage (turns k).stray (turns k).num (line ++ crlf) < 0
    · refine ⟨0, .bad, [line], held', (held ++ stale).drop held'.length, ?_, List.prefix_rfl,
        by simp [hheld]⟩
      simp only [hbad, if_true, joinCrlf_cons, joinCrlf_nil, List.append_nil, List.map_singleton]
    · refine ⟨0, .ok, [line], held', (held ++ stale).drop held'.length, ?_, List.prefix_rfl,
        by simp [hheld]⟩
      simp only [hbad, hres, if_true, if_false, joinCrlf_cons, joinCrlf_nil, List.append_nil,
        List.map_singleton]

theorem readReply_ends {j : Nat} (hget : (splitCrlf (cstr held)).1[j]? = some line)
    (hends : Ends (turns (k + j)) line) (hbound : j < bound) :
    ∃ ret event lines held' stale', readReply turns bound k messages (holding c held stale n) =
        some (ret, some event, messages ++ lines.map (· ++ crlf),
          holding c held' stale' (n + (joinCrlf lines []).length)) ∧
      lines <+: (splitCrlf (cstr held)).1 ∧ held = joinCrlf lines held' := by
  induction j generalizing k bound messages held stale n with
  | zero =>
    obtain ⟨bound, rfl⟩ := Nat.exists_eq_succ_of_ne_zero hbound.ne'
    rcases held_lines held with hno | ⟨first, held', hline, hfree, hheld, hsplit⟩
    · simp [splitCrlf_eq_of_noCrlf hno] at hget
    · obtain rfl : first = line := by simpa [hsplit] using hget
      obtain ⟨ret, event, lines, held'', stale', hread, hlines, hjoin⟩ :=
        readReply_ends_here hline hfree hheld hends
      refine ⟨ret, event, lines, held'', stale', hread, hlines.trans ?_, hjoin⟩
      rw [hsplit]
      exact List.prefix_append [first] _
  | succ j ih =>
    obtain ⟨bound, rfl⟩ := Nat.exists_eq_succ_of_ne_zero (Nat.ne_zero_of_lt hbound)
    rcases held_lines held with hno | ⟨first, held', hline, hfree, hheld, hsplit⟩
    · simp [splitCrlf_eq_of_noCrlf hno] at hget
    by_cases hfirst : Ends (turns k) first
    · obtain ⟨ret, event, lines, held'', stale', hread, hlines, hjoin⟩ :=
        readReply_ends_here hline hfree hheld hfirst
      refine ⟨ret, event, lines, held'', stale', hread, hlines.trans ?_, hjoin⟩
      rw [hsplit]
      exact List.prefix_append [first] _
    · simp only [Ends, not_or, Bool.not_eq_false, not_not] at hfirst
      have hnext : (splitCrlf (cstr held')).1[j]? = some line := by simpa [hsplit] using hget
      have hends' : Ends (turns (k + 1 + j)) line := by rwa [Nat.add_right_comm]
      obtain ⟨ret, event, lines, held'', stale', hread, hlines, hjoin⟩ :=
        @ih bound (k + 1) (messages ++ [first ++ crlf]) held' ((held ++ stale).drop held'.length)
          (n + (first ++ crlf).length) hnext hends' (Nat.lt_of_succ_lt_succ hbound)
      refine ⟨ret, event, first :: lines, held'', stale', ?_, ?_, ?_⟩
      · rw [readReply_line hline hfree hheld, if_pos hfirst.1]
        simp only [hfirst.2, if_true, hread]
        simp [Int.add_assoc]
      · rw [hsplit]
        exact List.cons_prefix_cons.mpr ⟨rfl, hlines⟩
      · rw [hheld, hjoin, joinCrlf_cons]

theorem readReply_starves (hroom : ∀ k, (turns k).room = true)
    (hno : ∀ j line, (splitCrlf (cstr held)).1[j]? = some line → ¬Ends (turns (k + j)) line)
    (hpair : held ≠ [] ∨ ¬NoCrlf (cstr stale)) :
    readReply turns bound k messages (holding c held stale n) = none := by
  induction bound generalizing k messages held stale n with
  | zero => rfl
  | succ bound ih =>
    rcases held_lines held with hnone | ⟨first, held', hline, hfree, hheld, hsplit⟩
    · exact readReply_unfinished (hroom k) hnone hpair
    · have hfirst : ¬Ends (turns k) first := hno 0 first (by simp [hsplit])
      simp only [Ends, not_or, Bool.not_eq_false, not_not] at hfirst
      rw [readReply_line hline hfree hheld, if_pos (hroom k)]
      simp only [hfirst.2, if_true]
      refine ih (fun j line hget => ?_) ?_
      · have hnot := hno (j + 1) line (by simpa [hsplit] using hget)
        rwa [← Nat.add_assoc, Nat.add_right_comm] at hnot
      · -- the whole line is stale once nothing is left behind it
        by_cases hlast : held' = []
        · right
          rw [hlast, List.length_nil, List.drop_zero, hheld, hlast, List.append_nil,
            cstr_append (nulFree_append.mpr ⟨hfree, by decide⟩)]
          exact fun h => h ⟨first, cstr stale, rfl⟩
        · exact .inl hlast

end Loop

section Calls

/-- The bytes of `receive_buf` that count. -/
def heldBytes (c : Conn) : Option Bytes :=
  memcpyFrom c.receiveBuf c.toReceive

theorem heldBytes_length {c : Conn} {held : Bytes} (h : heldBytes c = some held) :
    c.toReceive = held.length :=
  memcpyFrom_eq h

theorem heldBytes_holding (c : Conn) (held stale : Bytes) (n : Int) :
    heldBytes (holding c held stale n) = some held :=
  memcpyFrom_append held stale

theorem heldBytes_keeps {c c' : Conn} (h : Keeps c c') : heldBytes c' = heldBytes c := by
  obtain ⟨sendBuf, toSend, hc'⟩ := h
  rw [hc']
  rfl

theorem deliver_keeps (s : Surroundings) (ret : Int) (event : Event) (c : Conn) :
    Keeps c (deliver s ret event c).2 := by
  unfold deliver
  cases hstep : clientFsmStep s.handlerRoom s.behind c.state event c with
  | none => exact ⟨c.sendBuf, c.toSend, rfl⟩
  | some stepped =>
    cases stepped with
    | exited => exact ⟨c.sendBuf, c.toSend, rfl⟩
    | stepped state c' => exact (clientFsmStep_moves hstep).2

def Replies (c : Conn) (input : Surroundings × Bytes) : Prop :=
  input.1.room = true ∧ ∃ held, heldBytes c = some held ∧ ∃ j line,
    (splitCrlf (cstr (held ++ input.2))).1[j]? = some line ∧ Ends (input.1.turns j) line

instance (c : Conn) (input : Surroundings × Bytes) : Decidable (Replies c input) :=
  decidable_of_iff (input.1.room = true ∧ ∃ held ∈ heldBytes c,
    ∃ line ∈ (splitCrlf (cstr (held ++ input.2))).1.zipIdx, Ends (input.1.turns line.2) line.1) <| by
    simp only [Replies, Prod.exists, List.mk_mem_zipIdx_iff_getElem?, Option.mem_def]
    exact and_congr_right fun _ => exists_congr fun _ => and_congr_right fun _ => exists_comm

/-- The bytes that have come can be counted in an `int`. -/
def Counted (c : Conn) (input : Surroundings × Bytes) : Prop :=
  c.toReceive + input.2.length < 2 ^ 31 ∧ c.received + c.toReceive + input.2.length < 2 ^ 31

instance (c : Conn) (input : Surroundings × Bytes) : Decidable (Counted c input) :=
  inferInstanceAs (Decidable (_ ∧ _))

variable {c c' : Conn} {s : Surroundings} {piece held : Bytes}

theorem connRead_piece (hpiece : piece ≠ []) (hheld : heldBytes c = some held) :
    connRead true (some piece) c =
      some ((piece.length : Int), holding c (held ++ piece) [] c.received) := by
  obtain ⟨b, piece, rfl⟩ := List.exists_cons_of_ne_nil hpiece
  have hlen := heldBytes_length hheld
  simp only [connRead, concatDynamicStrings_eq hheld (memcpyFrom_self (b :: piece)),
    Option.bind_eq_bind, Option.bind_some]
  simp [holding]

theorem processConnRead_piece (hroom : s.room = true) (hpiece : piece ≠ [])
    (hheld : heldBytes c = some held) :
    processConnRead s (some piece) c =
      (readReply s.turns ((held ++ piece).length + 1) 0 []
        (holding c (held ++ piece) [] c.received)).bind fun (ret, event, messages, c) =>
          match event with
          | none => some (⟨.returned ret, none, messages⟩, c)
          | some event => some (⟨(deliver s ret event c).1, some event, messages⟩,
              (deliver s ret event c).2) := by
  have hpos : 0 < piece.length := List.length_pos_iff.mpr hpiece
  have hneg : ¬(piece.length : Int) < 0 := by omega
  have hzero : ¬(piece.length : Int) = 0 := by omega
  simp only [processConnRead, hroom, connRead_piece hpiece hheld, Option.bind_eq_bind,
    Option.bind_some, hneg, hzero, if_false]
  rfl

theorem Replies.takes (h : Replies c (s, piece)) (hpiece : piece ≠ []) :
    ∃ held o c' lines held', heldBytes c = some held ∧
      processConnRead s (some piece) c = some (o, c') ∧ o.messages = lines.map (· ++ crlf) ∧
      lines <+: (splitCrlf (held ++ piece)).1 ∧ held ++ piece = joinCrlf lines held' ∧
      heldBytes c' = some held' ∧ c'.received = c.received + (joinCrlf lines []).length := by
  obtain ⟨hroom, held, hheld, j, line, hget, hends⟩ := h
  have hbound : j < (held ++ piece).length + 1 := by
    have hj : j < (splitCrlf (cstr (held ++ piece))).1.length := (List.getElem?_eq_some_iff.mp hget).1
    have hlines := length_splitCrlf_le (cstr (held ++ piece))
    have hcstr : (cstr (held ++ piece)).length ≤ (held ++ piece).length :=
      (List.takeWhile_sublist _).length_le
    omega
  obtain ⟨ret, event, lines, held', stale, hread, hlines, hjoin⟩ :=
    @readReply_ends s.turns ((held ++ piece).length + 1) 0 [] c (held ++ piece) [] line c.received
      j hget (by rwa [Nat.zero_add]) hbound
  obtain ⟨ending, c', hdeliver, hkeeps⟩ : ∃ ending c',
      deliver s ret event (holding c held' stale (c.received + (joinCrlf lines []).length)) =
        (ending, c') ∧
      Keeps (holding c held' stale (c.received + (joinCrlf lines []).length)) c' :=
    ⟨_, _, rfl, deliver_keeps ..⟩
  refine ⟨held, ⟨ending, some event, lines.map (· ++ crlf)⟩, c', lines, held', hheld, ?_, rfl, ?_,
    hjoin, ?_, ?_⟩
  · rw [processConnRead_piece hroom hpiece hheld, hread]
    simp only [Option.bind_some, hdeliver, List.nil_append]
  · exact hlines.trans (splitCrlf_front (List.takeWhile_prefix _))
  · rw [heldBytes_keeps hkeeps, heldBytes_holding]
  · obtain ⟨sendBuf, toSend, hc'⟩ := hkeeps
    rw [hc']
    rfl

theorem processConnRead_starves (hroom : s.room = true) (hturns : ∀ k, (s.turns k).room = true)
    (hpiece : piece ≠ []) (hheld : heldBytes c = some held) (h : ¬Replies c (s, piece)) :
    processConnRead s (some piece) c = none := by
  have hno : ∀ j line, (splitCrlf (cstr (held ++ piece))).1[j]? = some line →
      ¬Ends (s.turns (0 + j)) line := fun j line hget hends =>
    h ⟨hroom, held, hheld, j, line, hget, by rwa [Nat.zero_add] at hends⟩
  have hne : held ++ piece ≠ [] := List.append_ne_nil_of_right_ne_nil held hpiece
  rw [processConnRead_piece hroom hpiece hheld, readReply_starves hturns hno (.inl hne),
    Option.bind_none]

end Calls

/-- The reads of a connection, whose counters are stored in `int`s; nothing is read after its
process has stopped. -/
def readMachine : Machine Conn (Surroundings × Bytes) Output where
  step c input := (processConnRead input.1 (some input.2) c).map fun r => (r.1, r.2.stored)
  stop o := match o.ending with
    | .returned _ => false
    | _ => true

/-- The law for the messages and the bytes so far. -/
structure Framed (start : Int) (messages : List Bytes) (total : Bytes) (c : Conn) : Prop where
  conserved : ∃ held, heldBytes c = some held ∧ messages.flatten ++ held = total
  counted : c.received + c.toReceive = start + total.length
  nonneg : 0 ≤ c.toReceive
  lines : messages <+: (splitCrlf total).1.map (· ++ crlf)

abbrev History := List (Step Conn (Surroundings × Bytes) Output)

def messagesOf (history : History) : List Bytes :=
  history.flatMap fun st => st.output.messages

def bytesOf (history : History) : Bytes :=
  history.flatMap fun st => st.input.2

/-- No call fails, and the law holds after each. -/
def Framing (c : Conn) (inputs : List (Surroundings × Bytes)) : Prop :=
  ∃ history last, readMachine.exec c inputs = some (history, last) ∧
    ∀ done st rest, history = done ++ st :: rest →
      Framed c.received (messagesOf (done ++ [st])) (bytesOf (done ++ [st])) st.after

theorem framed_init {c : Conn} (hempty : c.toReceive = 0) : Framed c.received [] [] c where
  conserved := ⟨[], by simp [heldBytes, hempty], rfl⟩
  counted := by simp [hempty]
  nonneg := by simp [hempty]
  lines := List.nil_prefix

theorem Framed.stored {start : Int} {messages : List Bytes} {total : Bytes} {c : Conn}
    (h : Framed start messages total c) (hreceive : c.toReceive < 2 ^ 31)
    (hleft : -2 ^ 31 ≤ c.received) (hright : c.received < 2 ^ 31) :
    c.stored.received = c.received ∧ Framed start messages total c.stored := by
  have hnonneg := h.nonneg
  have hreceived : toInt c.received = c.received := toInt_eq hleft hright
  have htoReceive : toInt c.toReceive = c.toReceive := toInt_eq (by omega) hreceive
  obtain ⟨held, hheld, hbytes⟩ := h.conserved
  refine ⟨hreceived, ⟨held, ?_, hbytes⟩, ?_, ?_, h.lines⟩
  · simp only [heldBytes, Conn.stored, htoReceive]
    exact hheld
  · simp only [Conn.stored, hreceived, htoReceive]
    exact h.counted
  · simp only [Conn.stored, htoReceive]
    exact hnonneg

theorem Framed.read {start : Int} {messages : List Bytes} {total piece : Bytes} {c : Conn}
    {s : Surroundings} (h : Framed start messages total c) (hint : -2 ^ 31 ≤ c.received)
    (hpiece : piece ≠ []) (hreplies : Replies c (s, piece)) (hcounted : Counted c (s, piece)) :
    ∃ o c', readMachine.step c (s, piece) = some (o, c') ∧ -2 ^ 31 ≤ c'.received ∧
      Framed start (messages ++ o.messages) (total ++ piece) c' := by
  obtain ⟨held, o, c', lines, held', hheld, hread, hmessages, hlines, hjoin, hheld', hreceived⟩ :=
    hreplies.takes hpiece
  obtain ⟨held₀, hheld₀, htotal⟩ := h.conserved
  obtain rfl : held₀ = held := Option.some.inj (hheld₀.symm.trans hheld)
  -- the messages so far are lines in front of the held bytes
  obtain ⟨old, hold, rfl⟩ := List.prefix_map_iff.mp h.lines
  have hnoCrlf : ∀ line ∈ old, NoCrlf line := fun line hmem =>
    noCrlf_of_mem_splitCrlf (hold.subset hmem)
  have hbytes : total ++ piece = joinCrlf old (held₀ ++ piece) := by
    rw [← htotal, joinCrlf, List.flatMap_def, List.append_assoc]
  have hlength := congrArg List.length hjoin
  rw [← List.nil_append held', joinCrlf_tail_append] at hlength
  simp only [List.length_append] at hlength
  have hlen := heldBytes_length hheld
  have hlen' := heldBytes_length hheld'
  have hframed : Framed start (old.map (· ++ crlf) ++ o.messages) (total ++ piece) c' := by
    refine ⟨⟨held', hheld', ?_⟩, ?_, ?_, ?_⟩
    · have hcancel : total ++ piece = joinCrlf (old ++ lines) held' := by
        rw [hbytes, hjoin, joinCrlf_append]
      rw [hcancel, hmessages, ← List.map_append, joinCrlf, List.flatMap_def]
    · have hstart := h.counted
      rw [hlen] at hstart
      rw [hreceived, hlen', List.length_append]
      push_cast
      omega
    · rw [hlen']
      exact Int.natCast_nonneg _
    · rw [hbytes, splitCrlf_joinCrlf_text hnoCrlf, hmessages, ← List.map_append]
      exact List.prefix_map_iff.mpr ⟨_, List.prefix_append_right_inj old |>.mpr hlines, rfl⟩
  have hcounted' := hcounted
  simp only [Counted] at hcounted'
  obtain ⟨hstored, hframed'⟩ := hframed.stored (by omega) (by omega) (by omega)
  exact ⟨o, c'.stored, by simp only [readMachine, hread, Option.map_some], by omega, hframed'⟩

/-- In the runs in which every read ends a reply and can be counted the framing does not depend
on the cuts; and where memory does not run out, every read of a run that is framed ends one. -/
theorem replies_framed {c : Conn} (hempty : c.toReceive = 0) (hint : c.stored = c)
    {inputs : List (Surroundings × Bytes)} (hpieces : ∀ input ∈ inputs, input.2 ≠ []) :
    (readMachine.Throughout (fun c input => Replies c input ∧ Counted c input) c inputs →
        Framing c inputs) ∧
      ((∀ input ∈ inputs, input.1.room = true ∧ ∀ k, (input.1.turns k).room = true) →
        Framing c inputs → readMachine.Throughout Replies c inputs) := by
  constructor
  · intro hreplies
    let Inv (history : History) (c' : Conn) : Prop :=
      Framed c.received (messagesOf history) (bytesOf history) c' ∧ -2 ^ 31 ≤ c'.received
    have hstep : ∀ history c' input, Inv history c' →
        ((Replies c' input ∧ Counted c' input) ∧ input.2 ≠ []) →
        ∃ o c'', readMachine.step c' input = some (o, c'') ∧
          Inv (history ++ [⟨c', input, o, c''⟩]) c'' := by
      rintro history c' ⟨s, piece⟩ ⟨hinv, hleft⟩ ⟨⟨hreplies, hcounted⟩, hpiece⟩
      obtain ⟨o, c'', hread, hleft', hframed⟩ := hinv.read hleft hpiece hreplies hcounted
      refine ⟨o, c'', hread, ?_, hleft'⟩
      simpa [messagesOf, bytesOf] using hframed
    have hstart : -2 ^ 31 ≤ c.received := by
      have hreceived : toInt c.received = c.received := congrArg Conn.received hint
      have hle := le_toInt c.received
      omega
    obtain ⟨history, last, hexec, -, hall⟩ := Machine.exec_invariant hstep
      (show Inv [] c from ⟨framed_init hempty, hstart⟩) (hreplies.and_inputs hpieces)
    exact ⟨history, last, hexec, fun done st rest hsplit => (hall done st rest hsplit).1⟩
  · intro hroom ⟨history, last, hexec, hframed⟩
    rw [Machine.throughout_iff hexec]
    intro st hmem
    obtain ⟨done, rest, hsplit⟩ := List.append_of_mem hmem
    have hinput : st.input ∈ inputs := by
      have hstart := (Machine.exec_inputs hexec).1
      exact hstart.subset (List.mem_map_of_mem hmem)
    obtain ⟨r, hstep, -⟩ := Option.map_eq_some_iff.mp (Machine.exec_step hexec hmem)
    -- the law held before the read
    have hbefore : ∃ held, heldBytes st.before = some held := by
      rw [Machine.exec_before hexec hsplit]
      rcases List.eq_nil_or_concat' done with rfl | ⟨init, prev, rfl⟩
      · exact ⟨[], by simp [heldBytes, hempty]⟩
      · obtain ⟨held, hheld, -⟩ := (hframed init prev (st :: rest) (by simp [hsplit])).conserved
        exact ⟨held, by simpa using hheld⟩
    obtain ⟨held, hheld⟩ := hbefore
    by_contra hno
    have hfail := processConnRead_starves (hroom _ hinput).1 (hroom _ hinput).2
      (hpieces _ hinput) hheld hno
    simp [hfail] at hstep

def calm : Surroundings :=
  ⟨true, fun _ => ⟨[nul], true, [nul], [nul]⟩, fun _ => true, [nul]⟩

/-- Two replies, the first of two lines, with a cut inside a line of the second. -/
theorem replies_framed_cut :
    Framing newConn [(calm, ascii "250-a\r\n250 b\r\n22"), (calm, ascii "0 c\r\n")] :=
  (replies_framed rfl rfl (by decide)).1 (by decide)

/-- A cut inside a line hands out a null pointer; a cut behind a continuation
line makes the size of what is left negative. -/
theorem cut_reply_fails :
    ¬Framing newConn [(calm, ascii "25"), (calm, ascii "0 ok\r\n")] ∧
      ¬Framing newConn [(calm, ascii "250-a\r\n"), (calm, ascii "250 b\r\n")] := by
  have hcut : (readMachine.exec newConn
      [(calm, ascii "25"), (calm, ascii "0 ok\r\n")]).isNone = true := by decide
  have hcontinued : (readMachine.exec newConn
      [(calm, ascii "250-a\r\n"), (calm, ascii "250 b\r\n")]).isNone = true := by decide
  constructor
  · rintro ⟨history, last, hexec, -⟩
    simp [hexec] at hcut
  · rintro ⟨history, last, hexec, -⟩
    simp [hexec] at hcontinued

end SmtpMta.Client.ReplyFraming
