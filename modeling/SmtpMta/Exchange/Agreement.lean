import SmtpMta.Client.Advance
import SmtpMta.Exchange.TwoParties
import SmtpMta.Exchange.Phases
import SmtpMta.Server.SessionInvariant

/-! When the client believes that its message has been taken, it has been: the
two sides go through the phases of an exchange together, and at any time either
a request or an answer is under way, but not both. -/
namespace SmtpMta.Exchange.Agreement
open Library.CString Library.Crlf Library.Trace Client.Fsm Client.Queue Client.ReplyParser
  Client.Transfer Client.ReplyFraming Client.Advance Server.Smtp Server.ReadLoop Server.Lines
  Server.Protocol Server.Commands Server.SessionInvariant Server.Reading TwoParties Phases Common.ListHead

/-- The code at the start of a message is read as the number it is. -/
def ReadsCode (turn : Turn) : Prop :=
  ∀ a b c rest, IsDigit a → IsDigit b → IsDigit c → parseReturnCode turn.num (a :: b :: c :: rest) =
    100 * (a.toNat - 48) + 10 * (b.toNat - 48) + (c.toNat - 48)

/-- What a call of the client needs: memory, codes that are read as they are,
and no dot line in what it takes for the text of the mail. -/
structure Sound (mailText : List Bytes) (s : Surroundings) : Prop where
  roomy : Roomy s
  codes : ∀ k, ReadsCode (s.turns k)
  noDots : ascii "." ∉ crlfLines (queuedText mailText s.behind)

def SoundAction (mailText : List Bytes) : Action → Prop
  | .clientReads s _ => Sound mailText s
  | .clientLosesConnection s => Sound mailText s
  | .recvFails s => Sound mailText s
  | .clientWrites s _ => Sound mailText s
  | .sendFails s => Sound mailText s
  | .serverReads _ => True

structure Carries (mailText : List Bytes) (mailFrom mailTo : Bytes) (c : Conn) : Prop where
  text : c.mailText = mailText
  sender : c.mailFrom = mailFrom
  recipient : c.mailTo = mailTo

/-- The client has read all answers so far, and `queued` is still to be sent. -/
structure Waits (p : Phase) (c : Conn) (queued : Bytes) : Prop where
  state : c.state = p.waits
  unsent : unsent c = some queued
  held : heldBytes c = some []

theorem Waits.quit {p : Phase} {c : Conn} {queued : Bytes} (h : Waits p c queued)
    (hstate : c.state = .sQuit) : p = .quit := by
  rw [h.state] at hstate
  cases p <;> simp_all [Phase.waits]

def Adrift (state : State) : Prop :=
  state ∈ [.finish, .sError, .invalid, .done]

theorem moves_adrift {state state' : State} {event : Event} (h : Moves state event state')
    (hstate : Adrift state) : Adrift state' := by
  simp only [Adrift, List.mem_cons, List.not_mem_nil, or_false] at hstate ⊢
  rcases h with ⟨rfl, -⟩ | ⟨rfl, -, -⟩ | ⟨-, rfl⟩
  · rcases hstate with rfl | rfl | rfl | rfl <;> cases event <;> simp_all [transTable]
  · simp at hstate
  · exact hstate

theorem moves_finish {event : Event} {state : State} (h : Moves .finish event state) :
    state = .finish := by
  rcases h with ⟨rfl, hvalid⟩ | ⟨hrt, -⟩ | ⟨-, rfl⟩
  · cases event <;> simp_all [transTable]
  · simp at hrt
  · rfl

section Client
variable {s : Surroundings} {c c' : Conn}

def Evolves (c c' : Conn) : Prop :=
  c'.state = c.state ∨ ∃ event, Moves c.state event c'.state

theorem deliver_evolves (s : Surroundings) (ret : Int) (event : Event) (c : Conn) :
    Evolves c (deliver s ret event c).2 := by
  unfold deliver
  cases hstep : clientFsmStep s.handlerRoom s.behind c.state event c with
  | none => exact .inl rfl
  | some stepped =>
    cases stepped with
    | exited => exact .inl rfl
    | stepped state c' => exact .inr ⟨event, (clientFsmStep_moves hstep).1⟩

theorem readReply_state {turns : Nat → Turn} {bound k : Nat} {messages messages' : List Bytes}
    {ret : Int} {event : Option Event}
    (h : readReply turns bound k messages c = some (ret, event, messages', c')) :
    c'.state = c.state := by
  induction bound generalizing k messages c with
  | zero => cases h
  | succ bound ih =>
    simp only [readReply, Option.bind_eq_bind, Option.bind_eq_some_iff] at h
    obtain ⟨buf, -, parsed, -, h⟩ := h
    split_ifs at h
    · cases h
      rfl
    · cases h
      rfl
    · obtain ⟨message, -, h⟩ := Option.bind_eq_some_iff.mp h
      split_ifs at h
      · cases h
        rfl
      · have hnext := ih h
        exact hnext
      · cases h
        rfl

theorem Evolves.of_state {c₁ : Conn} (h : Evolves c₁ c') (hstate : c₁.state = c.state) :
    Evolves c c' := by
  unfold Evolves at h ⊢
  rwa [hstate] at h

theorem connRead_state {room : Bool} {recv : Option Bytes} {len : Int}
    (h : connRead room recv c = some (len, c')) : c'.state = c.state := by
  unfold connRead at h
  split at h
  · cases h
    rfl
  · cases h
    rfl
  · obtain ⟨⟨receiveBuf, newLen⟩, -, h⟩ := Option.bind_eq_some_iff.mp h
    cases h
    rfl

theorem processConnRead_evolves {recv : Option Bytes} {o : Output}
    (h : processConnRead s recv c = some (o, c')) : Evolves c c' := by
  simp only [processConnRead, Option.bind_eq_bind, Option.bind_eq_some_iff] at h
  obtain ⟨⟨readLen, c₁⟩, hread, h⟩ := h
  have hstate := connRead_state hread
  dsimp only at h
  split_ifs at h
  · cases h
    exact (deliver_evolves s (-1) .error c₁).of_state hstate
  · cases h
    exact (deliver_evolves s 0 .connectionLost c₁).of_state hstate
  · obtain ⟨⟨ret, event, messages, c₂⟩, hreply, h⟩ := Option.bind_eq_some_iff.mp h
    have hstate' : c₂.state = c.state := (readReply_state hreply).trans hstate
    cases event with
    | none =>
      cases h
      exact .inl hstate'
    | some event =>
      cases h
      exact (deliver_evolves s ret event c₂).of_state hstate'

theorem processConnWrite_evolves {accepted : Option Nat} {ending : Ending} {sent : Bytes}
    (h : processConnWrite s accepted c = some (ending, sent, c')) : Evolves c c' := by
  simp only [processConnWrite, Option.bind_eq_bind, Option.bind_eq_some_iff] at h
  obtain ⟨⟨len, sent₁, c₁⟩, hwrite, h⟩ := h
  have hstate : c₁.state = c.state := by
    simp only [connWrite, Option.bind_eq_bind, Option.bind_eq_some_iff] at hwrite
    obtain ⟨buf, -, hwrite⟩ := hwrite
    cases accepted <;> cases hwrite <;> rfl
  dsimp only at h
  split_ifs at h
  · cases h
    exact (deliver_evolves s (-1) .error c₁).of_state hstate
  · cases h
    exact .inl hstate

end Client

section Requests
variable {mailText : List Bytes} {mailFrom mailTo : Bytes} {s : Surroundings} {c : Conn} {p : Phase}

theorem waits_sending (c : Conn) (hheld : heldBytes c = some []) (request : Bytes) :
    Waits p (sending c p.waits request) request :=
  ⟨rfl, unsent_sending .., hheld⟩

/-- The pieces that the handlers put together for the request of the next phase. -/
def pieces (mailFrom mailTo : Bytes) : Phase → List Bytes
  | .greeting => [ascii "EHLO ", domain, ascii "\r\n"]
  | .ehlo => [ascii "MAIL FROM:<", mailFrom, ascii ">\r\n"]
  | .mail => [ascii "RCPT TO:<", mailTo, ascii ">\r\n"]
  | .rcpt => [ascii "DATA", ascii "\r\n"]
  | .text => [ascii "QUIT\r\n"]
  | _ => []

theorem clientFsmStep_pieces (hstate : c.state = p.waits) (hp : pieces c.mailFrom c.mailTo p ≠ []) :
    clientFsmStep s.handlerRoom s.behind c.state .ok c =
      (queue s.handlerRoom p.next.waits (pieces c.mailFrom c.mailTo p) c).map fun r =>
        .stepped r.1 r.2 := by
  rw [hstate]
  cases p <;> first | rfl | exact absurd rfl hp

theorem pieces_nulFree (hfrom : regexMail.rmatch mailFrom = true)
    (hto : regexMail.rmatch mailTo = true) : ∀ piece ∈ pieces mailFrom mailTo p, NulFree piece := by
  have hbracket : NulFree (ascii ">\r\n") := by decide
  cases p with
  | ehlo => simp [pieces, nulFree_of_regexMail hfrom, hbracket]; decide
  | mail => simp [pieces, nulFree_of_regexMail hto, hbracket]; decide
  | _ => simp only [pieces]; decide

theorem isRequest_pieces (hp : pieces mailFrom mailTo p ≠ []) :
    IsRequest mailFrom mailTo p.next (pieces mailFrom mailTo p).flatten := by
  have hbracket : ascii ">\r\n" = ascii ">" ++ crlf := rfl
  cases p with
  | greeting => exact .inl ⟨_, rfl, rfl⟩
  | ehlo => exact .inl ⟨_, rfl, by simp [pieces, hbracket]⟩
  | mail => exact .inl ⟨_, rfl, by simp [pieces, hbracket]⟩
  | rcpt => exact .inl ⟨_, rfl, rfl⟩
  | text => exact .inl ⟨_, rfl, rfl⟩
  | data => exact absurd rfl hp
  | quit => exact absurd rfl hp
  | ended => exact absurd rfl hp

theorem Waits.advance (hfrom : regexMail.rmatch mailFrom = true)
    (hto : regexMail.rmatch mailTo = true) (hfree : ∀ line ∈ mailText, NulFree line)
    (hne : mailText.flatten ≠ []) (hsound : Sound mailText s)
    (hmail : Carries mailText mailFrom mailTo c) (h : Waits p c []) (hp : p ≠ .ended) :
    ∃ c' request, deliver s 0 .ok c = (.returned 0, c') ∧ Waits p.next c' request ∧
      Carries mailText mailFrom mailTo c' ∧ (p ≠ .quit → IsRequest mailFrom mailTo p.next request) := by
  obtain ⟨rfl, rfl, rfl⟩ := hmail
  by_cases hpieces : pieces c.mailFrom c.mailTo p = []
  · cases p with
    | data =>
      have hstep : clientFsmStep s.handlerRoom s.behind c.state .ok c =
          (handleData s.handlerRoom s.behind .sData c).map fun r => .stepped r.1 r.2 := by
        rw [h.state]
        rfl
      rw [handleData_text hsound.roomy.handler hfree (ne_nil_of_flatten hne) h.unsent,
          Option.map_some] at hstep
      refine ⟨_, _, deliver_ok hstep, waits_sending c h.held _, ⟨rfl, rfl, rfl⟩,
        fun _ => .inr ⟨rfl, ?_⟩⟩
      exact ⟨_, queuedText_nulFree hfree s.behind, hsound.noDots, rfl⟩
    | quit =>
      have hstep : clientFsmStep s.handlerRoom s.behind c.state .ok c =
          some (.stepped .finish { c with state := .finish }) := by
        rw [h.state]
        rfl
      refine ⟨{ c with state := .finish }, [], by simp only [deliver, hstep],
        ⟨rfl, h.unsent, h.held⟩, ⟨rfl, rfl, rfl⟩, fun hquit => absurd rfl hquit⟩
    | ended => exact absurd rfl hp
    | _ => simp [pieces] at hpieces
  · have hstep := clientFsmStep_pieces (s := s) h.state hpieces
    rw [queue_text hsound.roomy.handler hpieces (pieces_nulFree hfrom hto) h.unsent,
      Option.map_some] at hstep
    exact ⟨_, _, deliver_ok hstep, waits_sending c h.held _, ⟨rfl, rfl, rfl⟩,
      fun _ => isRequest_pieces hpieces⟩

end Requests

section Answers
variable {mailText : List Bytes} {mailFrom mailTo : Bytes} {s : Surroundings} {c : Conn} {p : Phase}

theorem processMessage_ok {turn : Turn} (hcodes : ReadsCode turn) {a b c d : Byte} {more : Bytes}
    (ha : IsDigit a) (hb : IsDigit b) (hc : IsDigit c) (hd : d ≠ 45)
    (hfree : NulFree (a :: b :: c :: d :: more))
    (hcode : 200 ≤ 100 * ((a.toNat : Int) - 48) + 10 * (b.toNat - 48) + (c.toNat - 48) ∧
      100 * ((a.toNat : Int) - 48) + 10 * (b.toNat - 48) + (c.toNat - 48) < 400) :
    processMessage turn.stray turn.num (a :: b :: c :: d :: more) = 1 := by
  have hlen : ¬strlen (a :: b :: c :: d :: more ++ turn.stray) < 4 := by
    rw [strlen, cstr_append hfree]
    simp only [List.length_append, List.length_cons]
    omega
  have hlast : (a :: b :: c :: d :: more ++ turn.stray)[3]? ≠ some 45 := by simpa using hd
  have hread : parseReturnCode turn.num (a :: b :: c :: d :: more ++ turn.stray) = _ :=
    hcodes a b c (d :: more ++ turn.stray) ha hb hc
  simp only [processMessage, hlen, hlast, if_false, hread]
  rw [if_neg (by omega), if_pos hcode]

theorem reply_ok (hp : p ≠ .ended) {turn : Turn} (hcodes : ReadsCode turn) :
    processMessage turn.stray turn.num (ascii p.reply) = 1 := by
  cases p <;> first
    | exact absurd rfl hp
    | exact processMessage_ok hcodes (by decide) (by decide) (by decide) (by decide) (by decide)
        (by decide)

theorem reply_line (hp : p ≠ .ended) :
    ∃ line, ascii p.reply = line ++ crlf ∧ NoCrlf line ∧ NulFree line := by
  refine ⟨(ascii p.reply).dropLast.dropLast, ?_⟩
  cases p <;> first
    | exact absurd rfl hp
    | exact ⟨rfl, noCrlf_of_cr_notMem (by decide), by decide⟩

theorem noCrlf_of_part {line part : Bytes} (hline : NoCrlf line) (hpart : part <+: line ++ crlf)
    (hne : part ≠ line ++ crlf) : NoCrlf part := by
  have hcr : NoCrlf (line ++ [cr]) :=
    noCrlf_append.mpr ⟨hline, noCrlf_cons.mpr ⟨by simp, noCrlf_nil⟩, by simp [Straddles, cr, lf]⟩
  have hsplit : line ++ crlf = line ++ [cr] ++ [lf] := by simp [crlf]
  rw [hsplit] at hpart hne
  rcases List.prefix_concat_iff.mp hpart with heq | hpre
  · exact absurd heq hne
  · exact hcr.of_sub hpre.isInfix

theorem Waits.take_reply (hfrom : regexMail.rmatch mailFrom = true)
    (hto : regexMail.rmatch mailTo = true) (hfree : ∀ line ∈ mailText, NulFree line)
    (hne : mailText.flatten ≠ []) (hsound : Sound mailText s)
    (hmail : Carries mailText mailFrom mailTo c) (h : Waits p c []) (hp : p ≠ .ended) {recv : Bytes}
    (hrecv : recv ≠ []) (hstart : recv <+: ascii p.reply) :
    processConnRead s (some recv) c = none ∨
      (recv = ascii p.reply ∧ ∃ o c' request, processConnRead s (some recv) c = some (o, c') ∧
        o.event = some .ok ∧ Waits p.next c' request ∧ Carries mailText mailFrom mailTo c' ∧
        (p ≠ .quit → IsRequest mailFrom mailTo p.next request)) := by
  obtain ⟨line, hreply, hline, hlineFree⟩ := reply_line hp
  by_cases hwhole : recv = ascii p.reply
  · right
    refine ⟨hwhole, ?_⟩
    have hok := reply_ok hp (hsound.codes 0)
    rw [hreply] at hok
    obtain ⟨stale, received, hread⟩ := processConnRead_ok hsound.roomy h.held hline hlineFree hok
    have hwaits : Waits p (holding c [] stale received) [] :=
      ⟨h.state, h.unsent, heldBytes_holding c [] stale received⟩
    have hmail' : Carries mailText mailFrom mailTo (holding c [] stale received) :=
      ⟨hmail.text, hmail.sender, hmail.recipient⟩
    obtain ⟨c', request, hdeliver, hnext, hcarries, hrequest⟩ :=
      hwaits.advance hfrom hto hfree hne hsound hmail' hp
    rw [hdeliver] at hread
    exact ⟨_, c', request, by rw [hwhole, hreply, hread], rfl, hnext, hcarries, hrequest⟩
  · left
    rw [hreply] at hstart hwhole
    exact processConnRead_partial hsound.roomy h.held hrecv (noCrlf_of_part hline hstart hwhole)

end Answers

section Run
variable (mailText : List Bytes) (mailFrom mailTo : Bytes)

/-- One message has been taken in this session, from the sender and for the
recipient alone. -/
def Agreed (c : Connection) : Prop :=
  ∃ call, c.calls.filter EndOfData = [call] ∧
    call.before.session.envelope.mailFrom = some mailFrom ∧
    foreachText call.before.mem call.before.session.envelope.recipients = some [mailTo]

structure Over (e : Parties) : Prop where
  finished : e.client.state = .finish
  closed : e.server.closed = true
  agreed : Agreed mailFrom mailTo e.server

/-- Where an exchange can be. -/
inductive Simulates (e : Parties) : Prop where
  | asks {p : Phase} {s : Served} {queued : Bytes} : Shows e.server s →
      Carries mailText mailFrom mailTo e.client → Waits p e.client queued →
      Hears mailFrom mailTo p s (e.toServer ++ queued) → e.toClient = [] → Simulates e
  | told {p : Phase} {s : Served} : Shows e.server s →
      Carries mailText mailFrom mailTo e.client → Waits p e.client [] → p ≠ .ended →
      Replied mailFrom mailTo p s → e.toServer = [] → e.toClient = ascii p.reply → Simulates e
  | ended : Over mailFrom mailTo e → Simulates e
  | adrift : Adrift e.client.state → Simulates e

structure Together (history : List (Step Parties Action Seen)) (e : Parties) : Prop where
  simulates : Simulates mailText mailFrom mailTo e
  told : (∃ st ∈ history, st.before.client.state = .sQuit ∧ st.output.event = some .ok) →
    Over mailFrom mailTo e

variable {mailText mailFrom mailTo} {e e' : Parties} {seen : Seen}

theorem endOfData_iff {call : Call} {a : Answered} (h : ShowsCall call a) :
    EndOfData call ↔ Takes a := by
  rw [EndOfData, Takes, h.before.state_eq, h.command, h.reply]

theorem agreed_of_shows {c : Connection} {s : Served} (h : Shows c s) {p : Phase}
    (hp : p = .quit ∨ p = .ended) (haccounts : Accounts mailFrom mailTo p s.answers) :
    Agreed mailFrom mailTo c := by
  rw [Accounts, if_pos hp] at haccounts
  obtain ⟨a, hfilter, hsender, hrecipients⟩ := haccounts
  have hcalls : List.Forall₂ ShowsCall (c.calls.filter EndOfData) (s.answers.filter Takes) :=
    List.rel_filter (fun call a hcall => by simpa using endOfData_iff hcall) h.calls
  rw [hfilter] at hcalls
  obtain ⟨call, rest, hcall, hnil, hfilter'⟩ := List.forall₂_cons_right_iff.mp hcalls
  obtain rfl := List.forall₂_nil_right_iff.mp hnil
  obtain ⟨bs, rs, ls, hfits⟩ := hcall.before
  refine ⟨call, hfilter', ?_, ?_⟩
  · rw [← hsender]
    exact hfits.sender
  · rw [← hrecipients]
    exact hfits.recipients.foreachText hfits.length_le.2.1

theorem clientReceives_evolves {s : Surroundings} {recv : Option Bytes}
    (h : clientReceives s recv e = some (seen, e')) :
    Evolves e.client e'.client ∧ e'.server = e.server := by
  obtain ⟨⟨o, client⟩, hread, h⟩ := Option.bind_eq_some_iff.mp h
  obtain ⟨-, rfl⟩ : _ ∧ { e with client } = e' := by simpa using h
  exact ⟨processConnRead_evolves hread, rfl⟩

theorem clientSends_evolves {s : Surroundings} {accepted : Option Nat}
    (h : clientSends s accepted e = some (seen, e')) :
    Evolves e.client e'.client ∧ e'.server = e.server := by
  obtain ⟨⟨ending, sent, client⟩, hwrite, h⟩ := Option.bind_eq_some_iff.mp h
  obtain ⟨-, rfl⟩ : _ ∧ { e with client, toServer := e.toServer ++ sent } = e' := by simpa using h
  exact ⟨processConnWrite_evolves hwrite, rfl⟩

theorem exchangeStep_evolves {mailPath : Bytes} {action : Action}
    (h : exchangeStep mailPath e action = some (seen, e')) :
    (Evolves e.client e'.client ∧ e'.server = e.server) ∨
      (e'.client = e.client ∧ ∃ input, serveRead mailPath e.server input = some e'.server) := by
  cases action with
  | clientReads s n =>
    simp only [exchangeStep] at h
    split at h
    · obtain ⟨-, rfl⟩ : _ ∧ e = e' := by simpa using h
      exact .inl ⟨.inl rfl, rfl⟩
    · have hevolves := clientReceives_evolves h
      exact .inl hevolves
  | clientLosesConnection s => exact .inl (clientReceives_evolves h)
  | recvFails s => exact .inl (clientReceives_evolves h)
  | clientWrites s n => exact .inl (clientSends_evolves h)
  | sendFails s => exact .inl (clientSends_evolves h)
  | serverReads n =>
    simp only [exchangeStep] at h
    split at h
    · obtain ⟨-, rfl⟩ : _ ∧ e = e' := by simpa using h
      exact .inl ⟨.inl rfl, rfl⟩
    · obtain ⟨server, hread, h⟩ := Option.bind_eq_some_iff.mp h
      obtain ⟨-, rfl⟩ := Prod.mk.inj (Option.some.inj h)
      exact .inr ⟨rfl, _, hread⟩

theorem Over.step {mailPath : Bytes} {action : Action} (h : Over mailFrom mailTo e)
    (hstep : exchangeStep mailPath e action = some (seen, e')) : Over mailFrom mailTo e' := by
  rcases exchangeStep_evolves hstep with ⟨hevolves, hserver⟩ | ⟨hclient, input, hread⟩
  · refine ⟨?_, hserver ▸ h.closed, hserver ▸ h.agreed⟩
    rcases hevolves with hsame | ⟨event, hmoves⟩
    · exact hsame.trans h.finished
    · rw [h.finished] at hmoves
      exact moves_finish hmoves
  · obtain hsame : e.server = e'.server := by simpa [serveRead, h.closed] using hread
    exact ⟨hclient ▸ h.finished, hsame ▸ h.closed, hsame ▸ h.agreed⟩

theorem adrift_step {mailPath : Bytes} {action : Action} (h : Adrift e.client.state)
    (hstep : exchangeStep mailPath e action = some (seen, e')) : Adrift e'.client.state := by
  rcases exchangeStep_evolves hstep with ⟨hsame | ⟨event, hmoves⟩, -⟩ | ⟨hclient, -⟩
  · rwa [hsame]
  · exact moves_adrift hmoves h
  · rwa [hclient]

section Steps
variable {mailPath : Bytes} {s : Served} {p : Phase} {queued : Bytes} {around : Surroundings}

theorem Waits.gives_up (h : Waits p e.client queued) (hp : p ≠ .ended) {event : Event}
    (hevent : event = .connectionLost ∨ event = .error) (ret : Int) :
    Adrift (deliver around ret event e.client).2.state := by
  have hstep : clientFsmStep around.handlerRoom around.behind e.client.state event e.client =
      some (.stepped (transTable p.waits event).1
        { e.client with state := (transTable p.waits event).1 }) := by
    rw [h.state]
    rcases hevent with rfl | rfl <;> cases p <;> first | rfl | exact absurd rfl hp
  have hnext : Adrift (transTable p.waits event).1 := by
    rcases hevent with rfl | rfl <;> cases p <;> simp_all [Adrift, Phase.waits, transTable]
  simpa only [deliver, hstep] using hnext

theorem Waits.write (h : Waits p e.client queued) (hfree : NulFree queued)
    (hmail : Carries mailText mailFrom mailTo e.client) {n : Nat}
    (hstep : clientSends around (some n) e = some (seen, e')) :
    ∃ sent rest, queued = sent ++ rest ∧ Waits p e'.client rest ∧
      Carries mailText mailFrom mailTo e'.client ∧ seen.event = none ∧ e'.server = e.server ∧
      e'.toServer = e.toServer ++ sent ∧ e'.toClient = e.toClient := by
  obtain ⟨sent, rest, sendBuf, sended, toSend, hwrite, hqueued, hrest⟩ :=
    processConnWrite_sends around h.unsent hfree n
  rw [clientSends, hwrite] at hstep
  obtain ⟨rfl, rfl⟩ := Prod.mk.inj (Option.some.inj hstep)
  exact ⟨sent, rest, hqueued, ⟨h.state, hrest, h.held⟩, ⟨hmail.text, hmail.sender, hmail.recipient⟩,
    rfl, rfl, rfl, rfl⟩

theorem Waits.fails (h : Waits p e.client queued) (hp : p ≠ .ended) (hfree : NulFree queued)
    {action : Action} (haction : action = .clientLosesConnection around ∨
      action = .recvFails around ∨ action = .sendFails around)
    (hstep : exchangeStep mailPath e action = some (seen, e')) :
    Adrift e'.client.state ∧ seen.event ≠ some .ok := by
  rcases haction with rfl | rfl | rfl
  · rw [exchangeStep, clientReceives, processConnRead_lost] at hstep
    obtain ⟨rfl, rfl⟩ := Prod.mk.inj (Option.some.inj hstep)
    exact ⟨h.gives_up hp (.inl rfl) 0, by simp⟩
  · rw [exchangeStep, clientReceives, processConnRead_failed] at hstep
    obtain ⟨rfl, rfl⟩ := Prod.mk.inj (Option.some.inj hstep)
    exact ⟨h.gives_up hp (.inr rfl) (-1), by simp⟩
  · rw [exchangeStep, clientSends, processConnWrite_failed around h.unsent hfree] at hstep
    obtain ⟨rfl, rfl⟩ := Prod.mk.inj (Option.some.inj hstep)
    exact ⟨h.gives_up hp (.inr rfl) (-1), by simp⟩

theorem server_reads (hfrom : regexMail.rmatch mailFrom = true)
    (hto : regexMail.rmatch mailTo = true) (hshows : Shows e.server s)
    (h : Hears mailFrom mailTo p s (e.toServer ++ queued)) (hempty : e.toClient = []) {n : Nat}
    (hstep : exchangeStep mailPath e (.serverReads n) = some (seen, e')) :
    e'.client = e.client ∧ seen.event = none ∧ ∃ s', Shows e'.server s' ∧
      ((Hears mailFrom mailTo p s' (e'.toServer ++ queued) ∧ e'.toClient = []) ∨
        (Replied mailFrom mailTo p s' ∧ queued = [] ∧ e'.toServer = [] ∧
          e'.toClient = ascii p.reply)) := by
  simp only [exchangeStep] at hstep
  split at hstep
  · obtain ⟨rfl, rfl⟩ := Prod.mk.inj (Option.some.inj hstep)
    exact ⟨rfl, rfl, s, hshows, .inl ⟨h, hempty⟩⟩
  · obtain ⟨server, hread, hstep⟩ := Option.bind_eq_some_iff.mp hstep
    obtain ⟨rfl, rfl⟩ := Prod.mk.inj (Option.some.inj hstep)
    obtain ⟨input, hinput⟩ : ∃ input, e.toServer.take (min n serverCommandMaxLen) = input := ⟨_, rfl⟩
    rw [hinput] at hread
    have hstart : input <+: e.toServer := hinput ▸ List.take_prefix _ _
    have hsplit : input ++ e.toServer.drop input.length = e.toServer :=
      List.prefix_iff_eq_append.mp hstart
    have hle : input.length ≤ serverCommandMaxLen := by
      rw [← hinput, List.length_take]
      omega
    have hfree : NulFree input := by
      have hall := h.nulFree hfrom hto
      rw [← hsplit] at hall
      exact (nulFree_append.mp (nulFree_append.mp hall).1).1
    rw [← hsplit, List.append_assoc] at h
    obtain ⟨s', htext, hnext⟩ := h.read hfrom hto hfree
    have hmatches := hshows.matches_read mailPath hle
    rw [htext, hread] at hmatches
    obtain ⟨server', hserver, hshows'⟩ := hmatches
    obtain rfl := Option.some.inj hserver
    refine ⟨rfl, rfl, s', hshows', ?_⟩
    dsimp only
    rw [hinput, hempty, hshows.sent, hshows'.sent, List.nil_append]
    rcases hnext with ⟨hsent, hhears⟩ | ⟨hcoming, hsent, hreplied⟩
    · exact .inl ⟨hhears, by rw [hsent, List.drop_length]⟩
    · obtain ⟨hdrop, hqueued⟩ := List.append_eq_nil_iff.mp hcoming
      exact .inr ⟨hreplied, hqueued, hdrop, by rw [hsent, List.drop_left]⟩

theorem client_reads (hfrom : regexMail.rmatch mailFrom = true)
    (hto : regexMail.rmatch mailTo = true) (hfree : ∀ line ∈ mailText, NulFree line)
    (hne : mailText.flatten ≠ []) (hsound : Sound mailText around) (hshows : Shows e.server s)
    (hmail : Carries mailText mailFrom mailTo e.client) (hwaits : Waits p e.client [])
    (hp : p ≠ .ended) (h : Replied mailFrom mailTo p s) (hserver : e.toServer = [])
    (hclient : e.toClient = ascii p.reply) {n : Nat}
    (hstep : exchangeStep mailPath e (.clientReads around n) = some (seen, e')) :
    (seen.event = none ∧ e' = e) ∨ (p = .quit ∧ Over mailFrom mailTo e') ∨
      (p ≠ .quit ∧ Simulates mailText mailFrom mailTo e') := by
  simp only [exchangeStep] at hstep
  split at hstep
  · obtain ⟨rfl, rfl⟩ := Prod.mk.inj (Option.some.inj hstep)
    exact .inl ⟨rfl, rfl⟩
  · rename_i hrecv
    right
    obtain ⟨⟨o, client⟩, hread, hstep⟩ := Option.bind_eq_some_iff.mp hstep
    obtain ⟨rfl, rfl⟩ := Prod.mk.inj (Option.some.inj hstep)
    have hstart : e.toClient.take (min n bufsize) <+: ascii p.reply :=
      hclient ▸ List.take_prefix _ _
    rcases hwaits.take_reply hfrom hto hfree hne hsound hmail hp hrecv hstart with
      hcrash | ⟨hwhole, o', client', request, htaken, -, hnext, hmail', hrequest⟩
    · rw [hcrash] at hread
      cases hread
    · rw [htaken] at hread
      obtain ⟨rfl, rfl⟩ := Prod.mk.inj (Option.some.inj hread)
      have hrest : e.toClient.drop (e.toClient.take (min n bufsize)).length = [] := by
        rw [hwhole, hclient, List.drop_length]
      by_cases hquit : p = .quit
      · subst hquit
        exact .inl ⟨rfl, hnext.state, hshows.closed.trans h.closed,
          agreed_of_shows hshows (.inr rfl) h.accounts⟩
      · refine .inr ⟨hquit, .asks hshows hmail' hnext ⟨?_, h.stage, h.accounts, ?_⟩ hrest⟩
        · simpa [hquit] using h.closed
        · exact ⟨request, [], hrequest hquit, by simp [h.held, hserver], .inl rfl⟩

theorem step_asks {action : Action} (hfrom : regexMail.rmatch mailFrom = true)
    (hto : regexMail.rmatch mailTo = true) (hshows : Shows e.server s)
    (hmail : Carries mailText mailFrom mailTo e.client) (hwaits : Waits p e.client queued)
    (hhears : Hears mailFrom mailTo p s (e.toServer ++ queued)) (hempty : e.toClient = [])
    (hstep : exchangeStep mailPath e action = some (seen, e')) :
    Simulates mailText mailFrom mailTo e' ∧ seen.event ≠ some .ok := by
  have hp := hhears.not_ended
  have hqueued : NulFree queued := (nulFree_append.mp (hhears.nulFree hfrom hto)).2
  cases action with
  | clientReads around n =>
    have hnothing : e.toClient.take (min n bufsize) = [] := by rw [hempty, List.take_nil]
    simp only [exchangeStep, hnothing] at hstep
    obtain ⟨rfl, rfl⟩ := Prod.mk.inj (Option.some.inj hstep)
    exact ⟨.asks hshows hmail hwaits hhears hempty, by simp⟩
  | clientLosesConnection around =>
    exact (hwaits.fails hp hqueued (.inl rfl) hstep).imp_left .adrift
  | recvFails around => exact (hwaits.fails hp hqueued (.inr (.inl rfl)) hstep).imp_left .adrift
  | clientWrites around n =>
    obtain ⟨sent, rest, rfl, hwaits', hmail', hevent, hserver, hto', hclient⟩ :=
      hwaits.write hqueued hmail hstep
    refine ⟨.asks (hserver ▸ hshows) hmail' hwaits' ?_ (hclient.trans hempty), by simp [hevent]⟩
    rwa [hto', List.append_assoc]
  | sendFails around => exact (hwaits.fails hp hqueued (.inr (.inr rfl)) hstep).imp_left .adrift
  | serverReads n =>
    obtain ⟨hclient, hevent, s', hshows', hnext⟩ :=
      server_reads hfrom hto hshows hhears hempty hstep
    rw [← hclient] at hmail hwaits
    refine ⟨?_, by simp [hevent]⟩
    rcases hnext with ⟨hhears', hempty'⟩ | ⟨hreplied, rfl, hserver, hclient'⟩
    · exact .asks hshows' hmail hwaits hhears' hempty'
    · exact .told hshows' hmail hwaits hp hreplied hserver hclient'

theorem step_told {action : Action} (hfrom : regexMail.rmatch mailFrom = true)
    (hto : regexMail.rmatch mailTo = true) (hfree : ∀ line ∈ mailText, NulFree line)
    (hne : mailText.flatten ≠ []) (hsound : SoundAction mailText action) (hshows : Shows e.server s)
    (hmail : Carries mailText mailFrom mailTo e.client) (hwaits : Waits p e.client [])
    (hp : p ≠ .ended) (hreplied : Replied mailFrom mailTo p s) (hserver : e.toServer = [])
    (hclient : e.toClient = ascii p.reply)
    (hstep : exchangeStep mailPath e action = some (seen, e')) :
    Simulates mailText mailFrom mailTo e' ∧
      (seen.event ≠ some .ok ∨ p ≠ .quit ∨ Over mailFrom mailTo e') := by
  have hnil : NulFree [] := nulFree_nil
  have hquiet (hevent : seen.event ≠ some .ok) :
      seen.event ≠ some .ok ∨ p ≠ .quit ∨ Over mailFrom mailTo e' := .inl hevent
  cases action with
  | clientReads around n =>
    rcases client_reads hfrom hto hfree hne hsound hshows hmail hwaits hp hreplied hserver hclient
      hstep with ⟨hevent, rfl⟩ | ⟨-, hover⟩ | ⟨hquit, hnext⟩
    · exact ⟨.told hshows hmail hwaits hp hreplied hserver hclient, hquiet (by simp [hevent])⟩
    · exact ⟨.ended hover, .inr (.inr hover)⟩
    · exact ⟨hnext, .inr (.inl hquit)⟩
  | clientLosesConnection around =>
    exact (hwaits.fails hp hnil (.inl rfl) hstep).imp .adrift hquiet
  | recvFails around => exact (hwaits.fails hp hnil (.inr (.inl rfl)) hstep).imp .adrift hquiet
  | clientWrites around n =>
    obtain ⟨sent, rest, hsplit, hwaits', hmail', hevent, hsame, hto', hclient'⟩ :=
      hwaits.write hnil hmail hstep
    obtain ⟨rfl, rfl⟩ := List.append_eq_nil_iff.mp hsplit.symm
    refine ⟨.told (hsame ▸ hshows) hmail' hwaits' hp hreplied ?_ (hclient'.trans hclient),
      hquiet (by simp [hevent])⟩
    rw [hto', hserver, List.append_nil]
  | sendFails around => exact (hwaits.fails hp hnil (.inr (.inr rfl)) hstep).imp .adrift hquiet
  | serverReads n =>
    have hnothing : e.toServer.take (min n serverCommandMaxLen) = [] := by
      rw [hserver, List.take_nil]
    simp only [exchangeStep, hnothing] at hstep
    obtain ⟨rfl, rfl⟩ := Prod.mk.inj (Option.some.inj hstep)
    exact ⟨.told hshows hmail hwaits hp hreplied hserver hclient, hquiet (by simp)⟩

theorem Simulates.step {action : Action} (hfrom : regexMail.rmatch mailFrom = true)
    (hto : regexMail.rmatch mailTo = true) (hfree : ∀ line ∈ mailText, NulFree line)
    (hne : mailText.flatten ≠ []) (hsound : SoundAction mailText action)
    (h : Simulates mailText mailFrom mailTo e)
    (hstep : exchangeStep mailPath e action = some (seen, e')) :
    Simulates mailText mailFrom mailTo e' ∧
      (e.client.state = .sQuit → seen.event = some .ok → Over mailFrom mailTo e') := by
  cases h with
  | asks hshows hmail hwaits hhears hempty =>
    obtain ⟨hnext, hevent⟩ := step_asks hfrom hto hshows hmail hwaits hhears hempty hstep
    exact ⟨hnext, fun _ hok => absurd hok hevent⟩
  | told hshows hmail hwaits hp hreplied hserver hclient =>
    obtain ⟨hnext, hover⟩ :=
      step_told hfrom hto hfree hne hsound hshows hmail hwaits hp hreplied hserver hclient hstep
    refine ⟨hnext, fun hstate hok => ?_⟩
    exact (hover.resolve_left (not_not.mpr hok)).resolve_left (not_not.mpr (hwaits.quit hstate))
  | ended hover => exact ⟨.ended (hover.step hstep), fun _ _ => hover.step hstep⟩
  | adrift hadrift =>
    refine ⟨.adrift (adrift_step hadrift hstep), fun hquit _ => ?_⟩
    rw [hquit] at hadrift
    simp [Adrift] at hadrift

theorem Simulates.quit_agreed (h : Simulates mailText mailFrom mailTo e)
    (hstate : e.client.state = .sQuit) : Agreed mailFrom mailTo e.server := by
  cases h with
  | asks hshows _ hwaits hhears =>
    obtain rfl := hwaits.quit hstate
    exact agreed_of_shows hshows (.inl rfl) hhears.accounts
  | told hshows _ hwaits _ hreplied =>
    obtain rfl := hwaits.quit hstate
    exact agreed_of_shows hshows (.inr rfl) hreplied.accounts
  | ended hover => exact hover.agreed
  | adrift hadrift =>
    rw [hstate] at hadrift
    simp [Adrift] at hadrift

end Steps

/-- The client has been told that its message was taken: it has sent its QUIT,
or has had the answer to it. -/
def Believes (history : List (Step Parties Action Seen)) (e : Parties) : Prop :=
  e.client.state = .sQuit ∨ (e.client.state = .finish ∧
    ∃ st ∈ history, st.before.client.state = .sQuit ∧ st.output.event = some .ok)

theorem Together.step {history : List (Step Parties Action Seen)} {mailPath : Bytes}
    {action : Action} (hfrom : regexMail.rmatch mailFrom = true)
    (hto : regexMail.rmatch mailTo = true) (hfree : ∀ line ∈ mailText, NulFree line)
    (hne : mailText.flatten ≠ []) (hsound : SoundAction mailText action)
    (h : Together mailText mailFrom mailTo history e)
    (hstep : exchangeStep mailPath e action = some (seen, e')) :
    Together mailText mailFrom mailTo (history ++ [⟨e, action, seen, e'⟩]) e' := by
  obtain ⟨hsimulates, hover⟩ := h.simulates.step hfrom hto hfree hne hsound hstep
  refine ⟨hsimulates, fun ⟨st, hmem, hstate, hok⟩ => ?_⟩
  rcases List.mem_append.mp hmem with hmem | hmem
  · exact (h.told ⟨st, hmem, hstate, hok⟩).step hstep
  · obtain rfl := List.mem_singleton.mp hmem
    exact hover hstate hok

theorem simulates_accepted {w : World} {server : Connection} (hoom : ∀ a, w.mem.oom a = false)
    (haccept : acceptConnection w = some server) (sendBuf receiveBuf : Option Bytes) :
    Simulates mailText mailFrom mailTo
      (accepted (initConnection mailText mailFrom mailTo sendBuf receiveBuf) server) := by
  obtain ⟨server', hserver, hshows⟩ := acceptConnection_shows hoom
  obtain rfl := Option.some.inj (haccept.symm.trans hserver)
  have hwaits : Waits .greeting (initConnection mailText mailFrom mailTo sendBuf receiveBuf) [] :=
    ⟨rfl, rfl, rfl⟩
  have hreplied : Replied mailFrom mailTo .greeting greeted :=
    ⟨rfl, rfl, rfl, by simp [Accounts, Phase.next, greeted]⟩
  exact .told hshows ⟨rfl, rfl, rfl⟩ hwaits (by decide) hreplied rfl hshows.sent

/-- While memory does not run out and no dot line is read from behind the text,
the client believes that its message was taken only if the server has taken it,
once, from its sender and for its recipient. -/
theorem agreement {w : World} {server : Connection} {sendBuf receiveBuf : Option Bytes}
    {mailPath : Bytes} {actions : List Action} {history : List (Step Parties Action Seen)}
    {last : Parties} (hfrom : regexMail.rmatch mailFrom = true)
    (hto : regexMail.rmatch mailTo = true) (hfree : ∀ line ∈ mailText, NulFree line)
    (hne : mailText.flatten ≠ []) (hoom : ∀ a, w.mem.oom a = false)
    (haccept : acceptConnection w = some server)
    (hsound : ∀ action ∈ actions, SoundAction mailText action)
    (hexec : (exchangeMachine mailPath).exec
      (accepted (initConnection mailText mailFrom mailTo sendBuf receiveBuf) server) actions =
        some (history, last)) (hbelieves : Believes history last) :
    Agreed mailFrom mailTo last.server := by
  let Inv (history : List (Step Parties Action Seen)) (e : Parties) : Prop :=
    (∀ st ∈ history, SoundAction mailText st.input) → Together mailText mailFrom mailTo history e
  have hinit : Inv [] (accepted (initConnection mailText mailFrom mailTo sendBuf receiveBuf) server) :=
    fun _ => ⟨simulates_accepted hoom haccept sendBuf receiveBuf, by simp⟩
  have hstep : ∀ history e action seen e', Inv history e →
      (exchangeMachine mailPath).step e action = some (seen, e') →
        Inv (history ++ [⟨e, action, seen, e'⟩]) e' := by
    intro history e action seen e' hinv hstep hall
    have hpast := hinv fun st hmem => hall st (by simp [hmem])
    exact hpast.step hfrom hto hfree hne (hall ⟨e, action, seen, e'⟩ (by simp)) hstep
  obtain ⟨hlast, -⟩ := Machine.exec_steps hstep hinit hexec
  have htogether := hlast fun st hmem =>
    hsound _ ((Machine.exec_inputs hexec).1.subset (List.mem_map_of_mem hmem))
  rcases hbelieves with hquit | ⟨-, htold⟩
  · exact htogether.simulates.quit_agreed hquit
  · exact (htogether.told htold).agreed

end Run

/-- A request, the reads of the server, and the answer. -/
def round (reads : List Nat) : List Action :=
  .clientWrites calm 100 :: reads.map .serverReads ++ [.clientReads calm 100]

/-- The greeting, and a round for each request. -/
def talk (rounds : List (List Nat)) : List Action :=
  .clientReads calm 100 :: rounds.flatMap round

theorem calm_sound : Sound newConn.mailText calm := by
  refine ⟨⟨rfl, fun _ => rfl, fun _ => rfl⟩, fun _ a b c rest ha hb hc => ?_, by decide⟩
  exact parseReturnCode_terminated ha hb hc rest []

theorem talk_sound (rounds : List (List Nat)) :
    ∀ action ∈ talk rounds, SoundAction newConn.mailText action := by
  intro action hmem
  rcases List.mem_cons.mp hmem with rfl | hmem
  · exact calm_sound
  · obtain ⟨reads, -, hround⟩ := List.mem_flatMap.mp hmem
    simp only [round, List.cons_append, List.mem_cons, List.mem_append, List.mem_map,
      List.not_mem_nil, or_false] at hround
    rcases hround with rfl | ⟨n, -, rfl⟩ | rfl
    · exact calm_sound
    · trivial
    · exact calm_sound

theorem agreement_newConn : ∃ server history last, acceptConnection idle = some server ∧
    (exchangeMachine (ascii "./mail")).exec (accepted newConn server)
      (talk (List.replicate 6 [100])) = some (history, last) ∧
    Believes history last ∧ Agreed (ascii "a@b") (ascii "c@d") last.server := by
  have hrun : ((acceptConnection idle).bind fun server =>
      ((exchangeMachine (ascii "./mail")).exec (accepted newConn server)
        (talk (List.replicate 6 [100]))).map fun r =>
          (r.2.client.state, r.1.any fun st =>
            st.before.client.state = .sQuit ∧ st.output.event = some .ok)) =
      some (.finish, true) := by
    decide +kernel
  obtain ⟨server, haccept, hrun⟩ := Option.bind_eq_some_iff.mp hrun
  obtain ⟨⟨history, last⟩, hexec, hlast⟩ := Option.map_eq_some_iff.mp hrun
  obtain ⟨hstate, htold⟩ := Prod.mk.inj hlast
  have hbelieves : Believes history last := .inr ⟨hstate, by simpa using htold⟩
  exact ⟨server, history, last, haccept, hexec, hbelieves,
    agreement (by decide) (by decide) (by decide) (by decide) (fun _ => rfl) haccept (talk_sound _)
      hexec hbelieves⟩

/-- A server that has no memory for one block. -/
def lossy (a : Addr) : World :=
  { idle with mem := { idle.mem with oom := (· = a) } }

/-- The middle of the RCPT command comes alone, and is lost without memory to
keep it: the message is taken for somebody else. -/
theorem lost_piece_misdirects : ∃ server history last, acceptConnection (lossy 4) = some server ∧
    (exchangeMachine (ascii "./mail")).exec
      (accepted { newConn with mailTo := ascii "cx@d" } server)
      (talk [[100], [100], [10, 1, 100], [100], [100]]) = some (history, last) ∧
    Believes history last ∧ ¬Agreed (ascii "a@b") (ascii "cx@d") last.server ∧
    regexMail.rmatch (ascii "a@b") = true ∧ regexMail.rmatch (ascii "cx@d") = true ∧
    ascii "." ∉ crlfLines newConn.mailText.flatten := by
  have hrun : ((acceptConnection (lossy 4)).bind fun server =>
      ((exchangeMachine (ascii "./mail")).exec
        (accepted { newConn with mailTo := ascii "cx@d" } server)
        (talk [[100], [100], [10, 1, 100], [100], [100]])).map fun r =>
          (r.2.client.state, (r.2.server.calls.filter EndOfData).map fun call =>
            foreachText call.before.mem call.before.session.envelope.recipients)) =
      some (.sQuit, [some [ascii "c@d"]]) := by
    decide +kernel
  obtain ⟨server, haccept, hrun⟩ := Option.bind_eq_some_iff.mp hrun
  obtain ⟨⟨history, last⟩, hexec, hlast⟩ := Option.map_eq_some_iff.mp hrun
  obtain ⟨hstate, hcalls⟩ := Prod.mk.inj hlast
  refine ⟨server, history, last, haccept, hexec, .inl hstate, ?_, by decide, by decide, by decide⟩
  rintro ⟨call, hfilter, -, hrecipients⟩
  rw [hfilter, List.map_singleton, hrecipients] at hcalls
  exact absurd hcalls (by decide)

end SmtpMta.Exchange.Agreement
