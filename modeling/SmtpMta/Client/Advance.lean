import SmtpMta.Client.Queue
import SmtpMta.Client.ReplyFraming

/-! How a client that has read everything takes a reply: a whole line moves it
on by one command, and less than a line makes it crash. -/
namespace SmtpMta.Client.Advance
open Library.CString Library.Crlf Common.SharedStrings Fsm ReplyParser Transfer ReplyFraming Queue

structure Roomy (s : Surroundings) : Prop where
  buffer : s.room = true
  messages : ∀ k, (s.turns k).room = true
  handler : ∀ k, s.handlerRoom k = true

section Reading
variable {s : Surroundings} {c : Conn}

theorem processConnRead_partial (hroomy : Roomy s) (hheld : heldBytes c = some []) {piece : Bytes}
    (hpiece : piece ≠ []) (hno : NoCrlf piece) : processConnRead s (some piece) c = none := by
  refine processConnRead_starves hroomy.buffer hroomy.messages hpiece hheld ?_
  rintro ⟨-, held, hheld', j, line, hget, -⟩
  obtain rfl : [] = held := Option.some.inj (hheld.symm.trans hheld')
  have hno' : NoCrlf (cstr piece) := hno.of_sub (List.takeWhile_prefix _).isInfix
  simp [splitCrlf_eq_of_noCrlf hno'] at hget

theorem processConnRead_ok (hroomy : Roomy s) (hheld : heldBytes c = some []) {line : Bytes}
    (hline : NoCrlf line) (hfree : NulFree line)
    (hok : processMessage (s.turns 0).stray (s.turns 0).num (line ++ crlf) = 1) :
    ∃ stale received, processConnRead s (some (line ++ crlf)) c =
      some (⟨(deliver s 0 .ok (holding c [] stale received)).1, some .ok, [line ++ crlf]⟩,
        (deliver s 0 .ok (holding c [] stale received)).2) := by
  have hne : line ++ crlf ≠ [] := by simp [crlf]
  refine ⟨line ++ crlf, c.received + (line ++ crlf).length, ?_⟩
  rw [processConnRead_piece hroomy.buffer hne hheld, List.nil_append,
    readReply_line hline hfree (List.append_nil _).symm, if_pos (hroomy.messages 0)]
  simp [hok]

theorem processConnRead_lost (s : Surroundings) (c : Conn) :
    processConnRead s (some []) c =
      some (⟨(deliver s 0 .connectionLost c).1, some .connectionLost, []⟩,
        (deliver s 0 .connectionLost c).2) := rfl

theorem processConnRead_failed (s : Surroundings) (c : Conn) :
    processConnRead s none c =
      some (⟨(deliver s (-1) .error c).1, some .error, []⟩, (deliver s (-1) .error c).2) := rfl

end Reading

section Writing
variable {c : Conn} {queued : Bytes}

theorem exists_block (hqueued : unsent c = some queued) (hne : queued ≠ []) :
    ∃ more, c.sendBuf = some (queued ++ more) := by
  have hlen := memcpyFrom_eq hqueued
  have hpos := List.length_pos_iff.mpr hne
  have hneg : ¬c.toSend < 0 := by omega
  have hzero : ¬c.toSend = 0 := by omega
  simp only [unsent, memcpyFrom, hneg, hzero, if_false, Option.bind_eq_bind,
    Option.bind_eq_some_iff] at hqueued
  obtain ⟨block, hblock, htake⟩ := hqueued
  split_ifs at htake
  refine ⟨block.drop c.toSend.toNat, ?_⟩
  rw [hblock, ← Option.some.inj htake, List.take_append_drop]

theorem offered_eq (hqueued : unsent c = some queued) (hfree : NulFree queued) :
    offered c = some (queued.take bufsize) := by
  have hlen := memcpyFrom_eq hqueued
  rcases eq_or_ne queued [] with rfl | hne
  · have hsize : c.toSend < bufsize := by rw [hlen]; decide
    have hzero : c.toSend = 0 := hlen
    simp only [offered, hsize, if_true]
    simp [hzero]
  · obtain ⟨more, hblock⟩ := exists_block hqueued hne
    have hpos := List.length_pos_iff.mpr hne
    have hbuf : (0 : Int) < bufsize := by decide
    have hsize : (if c.toSend < bufsize then c.toSend else (bufsize : Int)) =
        (min bufsize queued.length : Nat) := by
      split <;> omega
    have htext : (cstr (queued ++ more)).take (min bufsize queued.length) = queued.take bufsize := by
      rw [cstr_append hfree, List.take_append_of_le_length (Nat.min_le_right ..),
        ← List.take_eq_take_min]
    have hcopy : strncpy [] (queued ++ more) (min bufsize queued.length) = queued.take bufsize := by
      rw [strncpy, htext]
      simp
    have hfits : ¬((queued ++ more).length : Int) < c.toSend := by
      rw [hlen, List.length_append]
      omega
    have hmin : 0 < min bufsize queued.length := lt_min (by decide) hpos
    have hneg : ¬((min bufsize queued.length : Nat) : Int) < 0 := by omega
    have hzero : ¬((min bufsize queued.length : Nat) : Int) = 0 := by omega
    simp only [offered, hsize, hneg, hzero, if_false, hblock, Option.bind_eq_bind, Option.bind_some,
      hfits, Int.toNat_natCast, hcopy]

theorem memcpyFrom_sent (hqueued : unsent c = some queued) {k : Nat} (hk : k ≤ queued.length) :
    memcpyFrom (c.sendBuf.map fun block =>
        (block.drop k).take (c.toSend - k).toNat ++ block.drop (c.toSend - k).toNat)
      (c.toSend - k) = some (queued.drop k) := by
  have hsize : c.toSend - k = (queued.drop k).length := by
    rw [memcpyFrom_eq hqueued, List.length_drop]
    omega
  rw [hsize, Int.toNat_natCast]
  rcases eq_or_ne queued [] with rfl | hne
  · simp
  · obtain ⟨more, hblock⟩ := exists_block hqueued hne
    rw [hblock, Option.map_some, List.drop_append_of_le_length hk, List.take_left]
    exact memcpyFrom_append _ _

theorem connWrite_sends (hqueued : unsent c = some queued) (hfree : NulFree queued) (n : Nat) :
    ∃ sent rest sendBuf, connWrite (some n) c = some (sent.length, sent,
        { c with sendBuf, sended := c.sended + sent.length, toSend := c.toSend - sent.length }) ∧
      queued = sent ++ rest ∧ memcpyFrom sendBuf (c.toSend - sent.length) = some rest := by
  obtain ⟨sent, hsent⟩ : ∃ sent, sent = (queued.take bufsize).take n := ⟨_, rfl⟩
  have hstart : sent <+: queued := hsent ▸ (List.take_prefix _ _).trans (List.take_prefix _ _)
  refine ⟨sent, queued.drop sent.length,
    c.sendBuf.map fun block => (block.drop sent.length).take (c.toSend - sent.length).toNat ++
      block.drop (c.toSend - sent.length).toNat, ?_,
    (List.prefix_iff_eq_append.mp hstart).symm, memcpyFrom_sent hqueued hstart.length_le⟩
  simp only [connWrite, offered_eq hqueued hfree, ← hsent, Option.bind_eq_bind, Option.bind_some]

theorem connWrite_length (hqueued : unsent c = some queued) (hfree : NulFree queued) {n : Nat}
    {len : Int} {sent : Bytes} {c' : Conn} (h : connWrite (some n) c = some (len, sent, c')) :
    sent.length = min n (min bufsize queued.length) := by
  simp only [connWrite, offered_eq hqueued hfree, Option.bind_eq_bind, Option.bind_some,
    Option.some.injEq, Prod.mk.injEq] at h
  rw [← h.2.1, List.length_take, List.length_take]

theorem processConnWrite_sends (s : Surroundings) (hqueued : unsent c = some queued)
    (hfree : NulFree queued) (n : Nat) :
    ∃ sent rest sendBuf sended toSend, processConnWrite s (some n) c =
        some (.returned 0, sent, { c with sendBuf, sended, toSend }) ∧
      queued = sent ++ rest ∧ memcpyFrom sendBuf toSend = some rest := by
  obtain ⟨sent, rest, sendBuf, hwrite, hsplit, hrest⟩ := connWrite_sends hqueued hfree n
  have hneg : ¬(sent.length : Int) < 0 := by omega
  refine ⟨sent, rest, sendBuf, c.sended + sent.length, c.toSend - sent.length, ?_, hsplit, hrest⟩
  simp only [processConnWrite, hwrite, Option.bind_eq_bind, Option.bind_some, hneg, if_false]

theorem processConnWrite_failed (s : Surroundings) (hqueued : unsent c = some queued)
    (hfree : NulFree queued) :
    processConnWrite s none c = some ((deliver s (-1) .error c).1, [], (deliver s (-1) .error c).2) := by
  simp only [processConnWrite, connWrite, offered_eq hqueued hfree, Option.bind_eq_bind,
    Option.bind_some]
  rfl

end Writing

section Steps
variable {s : Surroundings} {c : Conn}

theorem deliver_ok {next : State} {command : Bytes} {ret : Int}
    (hstep : clientFsmStep s.handlerRoom s.behind c.state .ok c =
      some (.stepped next (sending c next command))) :
    deliver s ret .ok c = (.returned ret, sending c next command) := by
  simp only [deliver, hstep]

end Steps

end SmtpMta.Client.Advance
