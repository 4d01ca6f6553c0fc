import SmtpMta.Exchange.Agreement
import SmtpMta.Exchange.RequestEnds
import Mathlib.Algebra.Order.BigOperators.Group.List
import Mathlib.Algebra.Order.Group.Nat

/-! How far an exchange comes when no call fails. A client that is given a part of an
answer crashes. Otherwise the two sides stop moving bytes after a bounded number of calls;
then the mail has been taken, unless a read of the server has missed the end of a request. -/
namespace SmtpMta.Exchange.Completion
open Library.CString Library.Crlf Library.Trace Client.Fsm Client.Queue Client.ReplyParser
  Client.Transfer Client.ReplyFraming Client.Advance Server.Smtp Server.ReadLoop Server.Protocol
  Server.SessionInvariant Server.Reading TwoParties Phases Agreement RequestEnds

/-- The call of the action does not fail, and the other side is still there. -/
def Works : Action → Prop
  | .clientReads _ _ | .clientWrites _ _ | .serverReads _ => True
  | .clientLosesConnection _ | .recvFails _ | .sendFails _ => False

def CutsAnswer (e : Parties) : Action → Prop
  | .clientReads _ n => 0 < min n bufsize ∧ min n bufsize < e.toClient.length
  | _ => False

/-- A read of the server that passes over a pair at the end of what the client has sent or
is about to send: the last one, or in a message the one before the dot. -/
def MissesEnd (e : Parties) : Action → Prop
  | .serverReads n =>
      let input := e.toServer.take (min n serverCommandMaxLen)
      let rest := e.toServer.drop input.length ++ (unsent e.client).getD []
      input ≠ [] ∧
        (PairMissed input rest [] ∨ (e.client.state = .sData ∧ PairMissed input rest dotLine))
  | _ => False

def Moves (e : Parties) : Action → Prop
  | .clientReads _ n => 0 < n ∧ e.toClient ≠ []
  | .clientWrites _ n => 0 < n ∧ unsent e.client ≠ some []
  | .serverReads n => 0 < n ∧ e.toServer ≠ []
  | _ => False

instance (e : Parties) (action : Action) : Decidable (Moves e action) :=
  match action with
  | .clientReads _ n => inferInstanceAs (Decidable (0 < n ∧ e.toClient ≠ []))
  | .clientWrites _ n => inferInstanceAs (Decidable (0 < n ∧ unsent e.client ≠ some []))
  | .serverReads n => inferInstanceAs (Decidable (0 < n ∧ e.toServer ≠ []))
  | .clientLosesConnection _ | .recvFails _ | .sendFails _ => inferInstanceAs (Decidable False)

structure AtRest (e : Parties) : Prop where
  unsent : unsent e.client = some []
  toServer : e.toServer = []
  toClient : e.toClient = []

section Client
variable {mailText : List Bytes} {mailFrom mailTo : Bytes} {s : Surroundings} {c : Conn} {p : Phase}

def asked (mailText : List Bytes) (mailFrom mailTo behind : Bytes) (p : Phase) : Bytes :=
  if p = .data then queuedText mailText behind ++ ascii "\r\n.\r\n"
  else (pieces mailFrom mailTo p).flatten

theorem unsent_deliver (hfrom : regexMail.rmatch mailFrom = true)
    (hto : regexMail.rmatch mailTo = true) (hfree : ∀ line ∈ mailText, NulFree line)
    (hne : mailText.flatten ≠ []) (hroomy : Client.Advance.Roomy s)
    (hmail : Carries mailText mailFrom mailTo c) (h : Waits p c []) (hp : p ≠ .ended) :
    unsent (deliver s 0 .ok c).2 = some (asked mailText mailFrom mailTo s.behind p) := by
  obtain ⟨rfl, rfl, rfl⟩ := hmail
  by_cases hpieces : pieces c.mailFrom c.mailTo p = []
  · cases p with
    | data =>
      have hstep : clientFsmStep s.handlerRoom s.behind c.state .ok c =
          (handleData s.handlerRoom s.behind .sData c).map fun r => .stepped r.1 r.2 := by
        rw [h.state]
        rfl
      rw [handleData_text hroomy.handler hfree (ne_nil_of_flatten hne) h.unsent,
        Option.map_some] at hstep
      rw [deliver_ok hstep, unsent_sending]
      rfl
    | quit =>
      have hstep : clientFsmStep s.handlerRoom s.behind c.state .ok c =
          some (.stepped .finish { c with state := .finish }) := by
        rw [h.state]
        rfl
      simp only [deliver, hstep]
      exact h.unsent
    | ended => exact absurd rfl hp
    | _ => simp [pieces] at hpieces
  · have hdata : p ≠ .data := by
      rintro rfl
      exact hpieces rfl
    have hstep := clientFsmStep_pieces (s := s) h.state hpieces
    rw [queue_text hroomy.handler hpieces (pieces_nulFree hfrom hto) h.unsent,
      Option.map_some] at hstep
    rw [deliver_ok hstep, unsent_sending, asked, if_neg hdata, List.nil_append]

theorem Waits.take_whole (hfrom : regexMail.rmatch mailFrom = true)
    (hto : regexMail.rmatch mailTo = true) (hfree : ∀ line ∈ mailText, NulFree line)
    (hne : mailText.flatten ≠ []) (hsound : Sound mailText s)
    (hmail : Carries mailText mailFrom mailTo c) (h : Waits p c []) (hp : p ≠ .ended) :
    ∃ o c', processConnRead s (some (ascii p.reply)) c = some (o, c') ∧ o.ending = .returned 0 ∧
      Waits p.next c' (asked mailText mailFrom mailTo s.behind p) ∧
      Carries mailText mailFrom mailTo c' ∧
      (p ≠ .quit → IsRequest mailFrom mailTo p.next (asked mailText mailFrom mailTo s.behind p)) := by
  obtain ⟨line, hreply, hline, hlineFree⟩ := reply_line hp
  have hok := reply_ok hp (hsound.codes 0)
  rw [hreply] at hok
  obtain ⟨stale, received, hread⟩ := processConnRead_ok hsound.roomy h.held hline hlineFree hok
  have hwaits : Waits p (holding c [] stale received) [] :=
    ⟨h.state, h.unsent, heldBytes_holding c [] stale received⟩
  have hmail' : Carries mailText mailFrom mailTo (holding c [] stale received) :=
    ⟨hmail.text, hmail.sender, hmail.recipient⟩
  obtain ⟨c', request, hdeliver, hnext, hcarries, hrequest⟩ :=
    hwaits.advance hfrom hto hfree hne hsound hmail' hp
  have hasked := unsent_deliver hfrom hto hfree hne hsound.roomy hmail' hwaits hp
  rw [hdeliver, hnext.unsent, Option.some_inj] at hasked
  rw [hdeliver] at hread
  subst hasked
  exact ⟨_, c', by rw [hreply, hread], rfl, hnext, hcarries, hrequest⟩

end Client

/-- How many bytes of text the call may take for the mail. -/
def textSize (mailText : List Bytes) : Action → Nat
  | .clientReads s _ => (queuedText mailText s.behind).length
  | _ => 0

def askedSize (mailFrom mailTo : Bytes) (size : Nat) (p : Phase) : Nat :=
  if p = .data then size + 5 else (pieces mailFrom mailTo p).flatten.length

/-- The phases whose answer is still to come. -/
def Phase.remaining : Phase → List Phase
  | .greeting => [.greeting, .ehlo, .mail, .rcpt, .data, .text, .quit]
  | .ehlo => [.ehlo, .mail, .rcpt, .data, .text, .quit]
  | .mail => [.mail, .rcpt, .data, .text, .quit]
  | .rcpt => [.rcpt, .data, .text, .quit]
  | .data => [.data, .text, .quit]
  | .text => [.text, .quit]
  | .quit => [.quit]
  | .ended => []

/-- The calls that can still move bytes: one reads the answer, and each byte of the request
that follows is sent and read. -/
def callsLeft (mailFrom mailTo : Bytes) (size : Nat) (p : Phase) : Nat :=
  ((Phase.remaining p).map fun q => 1 + 2 * askedSize mailFrom mailTo size q).sum

def phaseOf : State → Phase
  | .init => .greeting
  | .initialized => .ehlo
  | .sEhlo => .mail
  | .sMf => .rcpt
  | .sRt => .data
  | .sData => .text
  | .sQuit => .quit
  | _ => .ended

/-- The calls that can still move bytes in an exchange. -/
def workLeft (mailFrom mailTo : Bytes) (size : Nat) (e : Parties) : Nat :=
  callsLeft mailFrom mailTo size (phaseOf e.client.state) +
    2 * ((unsent e.client).getD []).length + e.toServer.length

theorem phaseOf_waits (p : Phase) : phaseOf p.waits = p := by
  cases p <;> rfl

theorem callsLeft_next {p : Phase} (hp : p ≠ .ended) (mailFrom mailTo : Bytes) (size : Nat) :
    callsLeft mailFrom mailTo size p =
      1 + 2 * askedSize mailFrom mailTo size p + callsLeft mailFrom mailTo size p.next := by
  have hremaining : Phase.remaining p = p :: Phase.remaining p.next := by
    cases p <;> first | rfl | exact absurd rfl hp
  rw [callsLeft, hremaining, List.map_cons, List.sum_cons, callsLeft]

theorem length_asked_le {mailText : List Bytes} (mailFrom mailTo : Bytes) {behind : Bytes} {size : Nat}
    (hsize : (queuedText mailText behind).length ≤ size) (p : Phase) :
    (asked mailText mailFrom mailTo behind p).length ≤ askedSize mailFrom mailTo size p := by
  unfold asked askedSize
  split
  · have hdot : (ascii "\r\n.\r\n").length = 5 := by decide
    rw [List.length_append, hdot]
    omega
  · exact le_rfl

theorem Waits.workLeft {p : Phase} {queued mailFrom mailTo : Bytes} {e : Parties}
    (h : Waits p e.client queued) (size : Nat) : workLeft mailFrom mailTo size e =
      callsLeft mailFrom mailTo size p + 2 * queued.length + e.toServer.length := by
  rw [Completion.workLeft, h.state, h.unsent, phaseOf_waits, Option.getD_some]

section Run
variable (mailText : List Bytes) (mailFrom mailTo : Bytes)

/-- Where an exchange can be while no end of a request has been missed. -/
inductive Stands (e : Parties) : Prop where
  | asks {p : Phase} {s : Served} {queued : Bytes} : Shows e.server s →
      Carries mailText mailFrom mailTo e.client → Waits p e.client queued →
      Hears mailFrom mailTo p s (e.toServer ++ queued) →
      Ahead p s.dialogue.held.flatten (e.toServer ++ queued) → e.toClient = [] → Stands e
  | told {p : Phase} {s : Served} : Shows e.server s →
      Carries mailText mailFrom mailTo e.client → Waits p e.client [] → p ≠ .ended →
      Replied mailFrom mailTo p s → e.toServer = [] → e.toClient = ascii p.reply → Stands e
  | done : Over mailFrom mailTo e → Carries mailText mailFrom mailTo e.client →
      Waits .ended e.client [] → e.toServer = [] → e.toClient = [] → Stands e

/-- The server waits for the end of a request that it has passed over. -/
inductive Stuck (e : Parties) : Prop where
  | waits {p : Phase} {s : Served} {queued : Bytes} : Shows e.server s →
      Carries mailText mailFrom mailTo e.client → Waits p e.client queued →
      Hears mailFrom mailTo p s (e.toServer ++ queued) →
      Gone p s.dialogue.held.flatten (e.toServer ++ queued) → e.toClient = [] → Stuck e

variable {mailText mailFrom mailTo} {e e' : Parties} {seen : Seen} {mailPath : Bytes}

theorem server_read (mailPath : Bytes) (hfrom : regexMail.rmatch mailFrom = true)
    (hto : regexMail.rmatch mailTo = true) {p : Phase} {s : Served} {queued : Bytes}
    (hshows : Shows e.server s) (h : Hears mailFrom mailTo p s (e.toServer ++ queued))
    (hempty : e.toClient = []) {n : Nat} {input : Bytes}
    (hinput : e.toServer.take (min n serverCommandMaxLen) = input) (hne : input ≠ []) :
    ∃ s' server, readText s (cstr input) = some s' ∧ Shows server s' ∧
      exchangeStep mailPath e (.serverReads n) = some (⟨none, false⟩,
        { e with server, toServer := e.toServer.drop input.length,
                 toClient := s'.sent.drop s.sent.length }) := by
  have hle : input.length ≤ serverCommandMaxLen := by
    rw [← hinput, List.length_take]
    omega
  have hstart : input <+: e.toServer := hinput ▸ List.take_prefix _ _
  have hfree : NulFree input := by
    have hall := h.nulFree hfrom hto
    obtain ⟨more, hmore⟩ := hstart
    rw [← hmore] at hall
    exact (nulFree_append.mp (nulFree_append.mp hall).1).1
  rw [← List.prefix_iff_eq_append.mp hstart, List.append_assoc] at h
  obtain ⟨s', htext, -⟩ := h.read hfrom hto hfree
  have hmatches := hshows.matches_read mailPath hle
  rw [htext] at hmatches
  obtain ⟨server, hserver, hshows'⟩ := hmatches
  refine ⟨s', server, htext, hshows', ?_⟩
  cases input with
  | nil => exact absurd rfl hne
  | cons b input =>
    simp only [exchangeStep, hinput, hserver, hempty, hshows.sent, hshows'.sent,
      Option.bind_eq_bind, Option.bind_some, List.nil_append]

theorem client_write (mailPath : Bytes) {p : Phase} {queued : Bytes} (hwaits : Waits p e.client queued)
    (hfree : NulFree queued) (hmail : Carries mailText mailFrom mailTo e.client)
    (around : Surroundings) (n : Nat) :
    ∃ client sent rest, exchangeStep mailPath e (.clientWrites around n) = some (⟨none, false⟩,
        { e with client, toServer := e.toServer ++ sent }) ∧
      queued = sent ++ rest ∧ (0 < n → queued ≠ [] → sent ≠ []) ∧ Waits p client rest ∧
      Carries mailText mailFrom mailTo client := by
  obtain ⟨sent, rest, sendBuf, sended, toSend, hwrite, hqueued, hrest⟩ :=
    processConnWrite_sends around hwaits.unsent hfree n
  refine ⟨{ e.client with sendBuf, sended, toSend }, sent, rest, ?_, hqueued, fun hn hne hnil => ?_,
    ⟨hwaits.state, hrest, hwaits.held⟩, ⟨hmail.text, hmail.sender, hmail.recipient⟩⟩
  · rw [exchangeStep, clientSends, hwrite]
    rfl
  · simp only [processConnWrite, connWrite, offered_eq hwaits.unsent hfree, Option.bind_eq_bind,
      Option.bind_some] at hwrite
    split at hwrite
    · omega
    · obtain ⟨htaken, -⟩ : (queued.take bufsize).take n = sent ∧ _ := by simpa using hwrite
      rw [hnil, List.take_eq_nil_iff, List.take_eq_nil_iff] at htaken
      rcases htaken with hzero | hzero | hzero
      · omega
      · exact absurd hzero (by decide)
      · exact hne hzero

theorem client_read (mailPath : Bytes) {p : Phase} (hfrom : regexMail.rmatch mailFrom = true)
    (hto : regexMail.rmatch mailTo = true) (hfree : ∀ line ∈ mailText, NulFree line)
    (hne : mailText.flatten ≠ []) {around : Surroundings} (hsound : Sound mailText around)
    (hmail : Carries mailText mailFrom mailTo e.client) (hwaits : Waits p e.client [])
    (hp : p ≠ .ended) (hclient : e.toClient = ascii p.reply) {n : Nat} (hn : 0 < n) :
    (CutsAnswer e (.clientReads around n) ∧
      exchangeStep mailPath e (.clientReads around n) = none) ∨
    (¬CutsAnswer e (.clientReads around n) ∧ ∃ event client,
      exchangeStep mailPath e (.clientReads around n) =
        some (⟨event, false⟩, { e with client, toClient := [] }) ∧
      Waits p.next client (asked mailText mailFrom mailTo around.behind p) ∧
      Carries mailText mailFrom mailTo client ∧
      (p ≠ .quit →
        IsRequest mailFrom mailTo p.next (asked mailText mailFrom mailTo around.behind p))) := by
  have hbuf : 0 < bufsize := by decide
  have hpos : 0 < min n bufsize := lt_min hn hbuf
  have hreply : ascii p.reply ≠ [] := by cases p <;> first | decide | exact absurd rfl hp
  obtain ⟨recv, hrecv⟩ : ∃ recv, e.toClient.take (min n bufsize) = recv := ⟨_, rfl⟩
  have hsome : recv ≠ [] := by
    rw [← hrecv, Ne, List.take_eq_nil_iff, hclient]
    rintro (hzero | hnil)
    · omega
    · exact hreply hnil
  have hreads : exchangeStep mailPath e (.clientReads around n) =
      clientReceives around (some recv) { e with toClient := e.toClient.drop recv.length } := by
    cases recv with
    | nil => exact absurd rfl hsome
    | cons b recv => simp only [exchangeStep, hrecv]
  by_cases hcut : min n bufsize < e.toClient.length
  · refine .inl ⟨⟨hpos, hcut⟩, ?_⟩
    have hstart : recv <+: ascii p.reply := by
      rw [← hclient, ← hrecv]
      exact List.take_prefix _ _
    rcases hwaits.take_reply hfrom hto hfree hne hsound hmail hp hsome hstart with
      hcrash | ⟨hwhole, -⟩
    · rw [hreads, clientReceives, hcrash]
      rfl
    · have hlength := congrArg List.length (hrecv.trans hwhole)
      rw [List.length_take, ← hclient] at hlength
      omega
  · refine .inr ⟨fun hcuts => hcut hcuts.2, ?_⟩
    obtain rfl : ascii p.reply = recv := by
      rw [← hrecv, List.take_of_length_le (Nat.le_of_not_lt hcut), hclient]
    obtain ⟨o, client, htaken, hending, hnext, hmail', hrequest⟩ :=
      Waits.take_whole hfrom hto hfree hne hsound hmail hwaits hp
    refine ⟨o.event, client, ?_, hnext, hmail', hrequest⟩
    rw [hreads, clientReceives, htaken, hclient, List.drop_length]
    simp only [Option.bind_eq_bind, Option.bind_some, hending, Ending.stops]

theorem missesEnd_iff {p : Phase} {queued : Bytes} (hwaits : Waits p e.client queued) {n : Nat}
    {input : Bytes} (hinput : e.toServer.take (min n serverCommandMaxLen) = input)
    (hne : input ≠ []) :
    MissesEnd e (.serverReads n) ↔ EndMissed p input (e.toServer.drop input.length ++ queued) := by
  have hdata : e.client.state = .sData ↔ p = .text := by
    rw [hwaits.state]
    cases p <;> simp [Phase.waits]
  simp only [MissesEnd, hinput, hwaits.unsent, Option.getD_some, hdata, EndMissed]
  exact and_iff_right hne

/-- What the step does for the bound: a call that moves bytes makes it smaller. -/
def Spends (mailFrom mailTo : Bytes) (size : Nat) (e e' : Parties) (action : Action) : Prop :=
  workLeft mailFrom mailTo size e' + (if Moves e action then 1 else 0) ≤
    workLeft mailFrom mailTo size e

theorem idle_server (mailPath : Bytes) {n : Nat} (h : e.toServer.take (min n serverCommandMaxLen) = []) :
    exchangeStep mailPath e (.serverReads n) = some (⟨none, false⟩, e) ∧
      ¬MissesEnd e (.serverReads n) ∧ ¬Moves e (.serverReads n) := by
  refine ⟨by simp only [exchangeStep, h], fun hmissed => hmissed.1 h, fun hmoves => ?_⟩
  rcases List.take_eq_nil_iff.mp h with hzero | hnil
  · have hmax : 0 < serverCommandMaxLen := by decide
    have hpos := lt_min hmoves.1 hmax
    omega
  · exact hmoves.2 hnil

theorem idle_client (mailPath : Bytes) (around : Surroundings) {n : Nat} (h : n = 0 ∨ e.toClient = []) :
    exchangeStep mailPath e (.clientReads around n) = some (⟨none, false⟩, e) ∧
      ¬CutsAnswer e (.clientReads around n) ∧ ¬Moves e (.clientReads around n) := by
  have hnothing : e.toClient.take (min n bufsize) = [] := by
    rcases h with rfl | hnil
    · simp
    · rw [hnil, List.take_nil]
  refine ⟨by simp only [exchangeStep, hnothing], fun hcuts => ?_, fun hmoves => ?_⟩
  · rcases h with rfl | hnil
    · simp [CutsAnswer] at hcuts
    · simp [CutsAnswer, hnil] at hcuts
  · rcases h with rfl | hnil
    · exact absurd hmoves.1 (Nat.lt_irrefl 0)
    · exact hmoves.2 hnil

section Steps
variable {p : Phase} {s : Served} {queued : Bytes} {around : Surroundings}

theorem spends_idle {size : Nat} {action : Action} (h : ¬Moves e action) :
    Spends mailFrom mailTo size e e action := by
  rw [Spends, if_neg h]
  exact le_rfl

theorem spends_write {size : Nat} {client : Conn} {sent rest : Bytes} {n : Nat}
    (hwaits : Waits p e.client (sent ++ rest)) (hnext : Waits p client rest)
    (hsent : 0 < n → sent ++ rest ≠ [] → sent ≠ []) :
    Spends mailFrom mailTo size e { e with client, toServer := e.toServer ++ sent }
      (.clientWrites around n) := by
  have hwork : workLeft mailFrom mailTo size e = _ := Waits.workLeft hwaits size
  have hwork' : workLeft mailFrom mailTo size
      { e with client, toServer := e.toServer ++ sent } = _ := Waits.workLeft hnext size
  rw [Spends, hwork, hwork']
  simp only [List.length_append]
  split
  · rename_i hmoves
    obtain ⟨hn, hunsent⟩ := hmoves
    rw [hwaits.unsent, Ne, Option.some_inj] at hunsent
    have hpos := List.length_pos_iff.mpr (hsent hn hunsent)
    omega
  · omega

theorem spends_read {size n : Nat} {server : Connection} {input toClient : Bytes}
    (hinput : e.toServer.take (min n serverCommandMaxLen) = input) (hne : input ≠ []) :
    Spends mailFrom mailTo size e
      { e with server, toServer := e.toServer.drop input.length, toClient } (.serverReads n) := by
  have hpos := List.length_pos_iff.mpr hne
  have hle : input.length ≤ e.toServer.length := by
    rw [← hinput, List.length_take]
    omega
  simp only [Spends, workLeft, List.length_drop]
  split <;> omega

theorem asks_step (mailPath : Bytes) (hfrom : regexMail.rmatch mailFrom = true) (hto : regexMail.rmatch mailTo = true)
    (hshows : Shows e.server s) (hmail : Carries mailText mailFrom mailTo e.client)
    (hwaits : Waits p e.client queued) (hhears : Hears mailFrom mailTo p s (e.toServer ++ queued))
    (hempty : e.toClient = []) {action : Action} (hworks : Works action) (size : Nat) :
    ¬CutsAnswer e action ∧ ∃ seen e', exchangeStep mailPath e action = some (seen, e') ∧
      Spends mailFrom mailTo size e e' action ∧
      (Gone p s.dialogue.held.flatten (e.toServer ++ queued) → Stuck mailText mailFrom mailTo e') ∧
      (Ahead p s.dialogue.held.flatten (e.toServer ++ queued) →
        (MissesEnd e action → Stuck mailText mailFrom mailTo e') ∧
        (¬MissesEnd e action → Stands mailText mailFrom mailTo e')) := by
  cases action with
  | clientLosesConnection | recvFails | sendFails => exact absurd hworks id
  | clientReads around n =>
    obtain ⟨hstep, hcuts, hmoves⟩ := @idle_client e mailPath around n (.inr hempty)
    exact ⟨hcuts, _, e, hstep, spends_idle hmoves,
      fun hgone => .waits hshows hmail hwaits hhears hgone hempty,
      fun hahead => ⟨fun hmissed => absurd hmissed id,
        fun _ => .asks hshows hmail hwaits hhears hahead hempty⟩⟩
  | clientWrites around n =>
    have hfree : NulFree queued := (nulFree_append.mp (hhears.nulFree hfrom hto)).2
    obtain ⟨client, sent, rest, hstep, rfl, hsent, hnext, hmail'⟩ :=
      client_write mailPath hwaits hfree hmail around n
    rw [← List.append_assoc] at hhears
    refine ⟨id, _, _, hstep, spends_write hwaits hnext hsent, fun hgone => ?_,
      fun hahead => ⟨fun hmissed => absurd hmissed id, fun _ => ?_⟩⟩
    · rw [← List.append_assoc] at hgone
      exact .waits hshows hmail' hnext hhears hgone hempty
    · rw [← List.append_assoc] at hahead
      exact .asks hshows hmail' hnext hhears hahead hempty
  | serverReads n =>
    refine ⟨id, ?_⟩
    obtain ⟨input, hinput⟩ : ∃ input, e.toServer.take (min n serverCommandMaxLen) = input := ⟨_, rfl⟩
    by_cases hne : input = []
    · obtain ⟨hstep, hmissed, hmoves⟩ := idle_server mailPath (hinput.trans hne)
      exact ⟨_, e, hstep, spends_idle hmoves,
        fun hgone => .waits hshows hmail hwaits hhears hgone hempty,
        fun hahead => ⟨fun h => absurd h hmissed,
          fun _ => .asks hshows hmail hwaits hhears hahead hempty⟩⟩
    obtain ⟨s', server, hread, hshows', hstep⟩ :=
      server_read mailPath hfrom hto hshows hhears hempty hinput hne
    have hsplit : e.toServer ++ queued = input ++ (e.toServer.drop input.length ++ queued) := by
      have hstart : input <+: e.toServer := hinput ▸ List.take_prefix _ _
      rw [← List.append_assoc, List.prefix_iff_eq_append.mp hstart]
    rw [hsplit] at hhears ⊢
    obtain ⟨hquiet, hanswered⟩ := read_sent hfrom hto hhears hread
    have hstill (h : Hears mailFrom mailTo p s' (e.toServer.drop input.length ++ queued)) :
        s'.sent.drop s.sent.length = [] := by
      rw [hquiet h, List.drop_length]
    refine ⟨_, _, hstep, spends_read hinput hne, fun hgone => ?_, fun hahead => ⟨fun hmissed => ?_,
      fun hfound => ?_⟩⟩
    · obtain ⟨hhears', hgone'⟩ := gone_read hfrom hto hhears hread hne hgone
      exact .waits hshows' hmail hwaits hhears' hgone' (hstill hhears')
    · rw [missesEnd_iff hwaits hinput hne] at hmissed
      obtain ⟨hhears', hgone⟩ := ahead_missed hfrom hto hhears hread hahead hmissed
      exact .waits hshows' hmail hwaits hhears' hgone (hstill hhears')
    · rw [missesEnd_iff hwaits hinput hne] at hfound
      rcases ahead_read hfrom hto hhears hread hne hahead hfound with
        ⟨hhears', hahead'⟩ | ⟨hrest, hreplied⟩
      · exact .asks hshows' hmail hwaits hhears' hahead' (hstill hhears')
      · obtain ⟨hdrop, rfl⟩ := List.append_eq_nil_iff.mp hrest
        refine .told hshows' hmail hwaits hhears.not_ended hreplied hdrop ?_
        dsimp only
        rw [hanswered hreplied, List.drop_left]

theorem told_step (mailPath : Bytes) (hfrom : regexMail.rmatch mailFrom = true) (hto : regexMail.rmatch mailTo = true)
    (hfree : ∀ line ∈ mailText, NulFree line) (hne : mailText.flatten ≠ []) {action : Action}
    (hsound : SoundAction mailText action) (hworks : Works action) {size : Nat}
    (hsize : textSize mailText action ≤ size) (hshows : Shows e.server s)
    (hmail : Carries mailText mailFrom mailTo e.client) (hwaits : Waits p e.client [])
    (hp : p ≠ .ended) (hreplied : Replied mailFrom mailTo p s) (hserver : e.toServer = [])
    (hclient : e.toClient = ascii p.reply) :
    ¬MissesEnd e action ∧ ((CutsAnswer e action ∧ exchangeStep mailPath e action = none) ∨
      (¬CutsAnswer e action ∧ ∃ seen e', exchangeStep mailPath e action = some (seen, e') ∧
        Spends mailFrom mailTo size e e' action ∧ Stands mailText mailFrom mailTo e')) := by
  have hsame : Stands mailText mailFrom mailTo e :=
    .told hshows hmail hwaits hp hreplied hserver hclient
  cases action with
  | clientLosesConnection | recvFails | sendFails => exact absurd hworks id
  | clientWrites around n =>
    obtain ⟨client, sent, rest, hstep, hqueued, hsent, hnext, hmail'⟩ :=
      client_write mailPath hwaits nulFree_nil hmail around n
    obtain ⟨rfl, rfl⟩ := List.append_eq_nil_iff.mp hqueued.symm
    refine ⟨id, .inr ⟨id, _, _, hstep, spends_write hwaits hnext hsent, ?_⟩⟩
    exact .told hshows hmail' hnext hp hreplied (by rw [hserver, List.append_nil]) hclient
  | serverReads n =>
    have hnothing : e.toServer.take (min n serverCommandMaxLen) = [] := by
      rw [hserver, List.take_nil]
    obtain ⟨hstep, hmissed, hmoves⟩ := idle_server mailPath hnothing
    exact ⟨hmissed, .inr ⟨id, _, e, hstep, spends_idle hmoves, hsame⟩⟩
  | clientReads around n =>
    refine ⟨id, ?_⟩
    by_cases hn : n = 0
    · obtain ⟨hstep, hcuts, hmoves⟩ := @idle_client e mailPath around n (.inl hn)
      exact .inr ⟨hcuts, _, e, hstep, spends_idle hmoves, hsame⟩
    have hread := client_read mailPath hfrom hto hfree hne hsound hmail hwaits hp hclient
      (Nat.pos_of_ne_zero hn)
    rcases hread with hcrash | ⟨hcuts, event, client, hstep, hnext, hmail', hrequest⟩
    · exact .inl hcrash
    · refine .inr ⟨hcuts, _, _, hstep, ?_, ?_⟩
      · have hwork : workLeft mailFrom mailTo size e = _ := Waits.workLeft hwaits size
        have hwork' : workLeft mailFrom mailTo size { e with client, toClient := [] } = _ :=
          Waits.workLeft hnext size
        have hle := length_asked_le mailFrom mailTo hsize p
        rw [Spends, hwork, hwork', callsLeft_next hp]
        simp only [List.length_nil]
        split <;> omega
      · by_cases hquit : p = .quit
        · subst hquit
          refine .done ⟨hnext.state, hshows.closed.trans hreplied.closed,
            agreed_of_shows hshows (.inr rfl) hreplied.accounts⟩ hmail' hnext hserver rfl
        · have hasks := hrequest hquit
          have hheld : s.dialogue.held.flatten = [] := by simp [hreplied.held]
          refine .asks hshows hmail' hnext ⟨?_, hreplied.stage, hreplied.accounts, ?_⟩ ?_ rfl
          · simpa [hquit] using hreplied.closed
          · exact ⟨_, [], hasks, by simp [hreplied.held, hserver], .inl rfl⟩
          · rw [hheld, hserver, List.nil_append]
            exact ahead_request hasks

theorem done_step (mailPath : Bytes) {action : Action} (hworks : Works action) (size : Nat)
    (hover : Over mailFrom mailTo e) (hmail : Carries mailText mailFrom mailTo e.client)
    (hwaits : Waits .ended e.client []) (hserver : e.toServer = []) (hclient : e.toClient = []) :
    ¬MissesEnd e action ∧ ¬CutsAnswer e action ∧ ∃ seen e',
      exchangeStep mailPath e action = some (seen, e') ∧
        Spends mailFrom mailTo size e e' action ∧ Stands mailText mailFrom mailTo e' := by
  have hsame : Stands mailText mailFrom mailTo e := .done hover hmail hwaits hserver hclient
  cases action with
  | clientLosesConnection | recvFails | sendFails => exact absurd hworks id
  | clientWrites around n =>
    obtain ⟨client, sent, rest, hstep, hqueued, hsent, hnext, hmail'⟩ :=
      client_write mailPath hwaits nulFree_nil hmail around n
    obtain ⟨rfl, rfl⟩ := List.append_eq_nil_iff.mp hqueued.symm
    refine ⟨id, id, _, _, hstep, spends_write hwaits hnext hsent, ?_⟩
    exact .done (hover.step hstep) hmail' hnext (by rw [hserver, List.append_nil]) hclient
  | serverReads n =>
    have hnothing : e.toServer.take (min n serverCommandMaxLen) = [] := by
      rw [hserver, List.take_nil]
    obtain ⟨hstep, hmissed, hmoves⟩ := idle_server mailPath hnothing
    exact ⟨hmissed, id, _, e, hstep, spends_idle hmoves, hsame⟩
  | clientReads around n =>
    obtain ⟨hstep, hcuts, hmoves⟩ := @idle_client e mailPath around n (.inr hclient)
    exact ⟨id, hcuts, _, e, hstep, spends_idle hmoves, hsame⟩

end Steps

theorem Stands.step (mailPath : Bytes) (hfrom : regexMail.rmatch mailFrom = true) (hto : regexMail.rmatch mailTo = true)
    (hfree : ∀ line ∈ mailText, NulFree line) (hne : mailText.flatten ≠ []) {action : Action}
    (hsound : SoundAction mailText action) (hworks : Works action) {size : Nat}
    (hsize : textSize mailText action ≤ size) (h : Stands mailText mailFrom mailTo e) :
    (CutsAnswer e action ∧ exchangeStep mailPath e action = none) ∨
      (¬CutsAnswer e action ∧ ∃ seen e', exchangeStep mailPath e action = some (seen, e') ∧
        Spends mailFrom mailTo size e e' action ∧
        (MissesEnd e action → Stuck mailText mailFrom mailTo e') ∧
        (¬MissesEnd e action → Stands mailText mailFrom mailTo e')) := by
  cases h with
  | asks hshows hmail hwaits hhears hahead hempty =>
    obtain ⟨hcuts, seen, e', hstep, hspends, -, hnext⟩ :=
      asks_step mailPath hfrom hto hshows hmail hwaits hhears hempty hworks size
    exact .inr ⟨hcuts, seen, e', hstep, hspends, hnext hahead⟩
  | told hshows hmail hwaits hp hreplied hserver hclient =>
    obtain ⟨hmissed, hcrash | ⟨hcuts, seen, e', hstep, hspends, hnext⟩⟩ :=
      told_step mailPath hfrom hto hfree hne hsound hworks hsize hshows hmail hwaits hp
        hreplied hserver hclient
    · exact .inl hcrash
    · exact .inr ⟨hcuts, seen, e', hstep, hspends, fun h => absurd h hmissed, fun _ => hnext⟩
  | done hover hmail hwaits hserver hclient =>
    obtain ⟨hmissed, hcuts, seen, e', hstep, hspends, hnext⟩ :=
      done_step mailPath hworks size hover hmail hwaits hserver hclient
    exact .inr ⟨hcuts, seen, e', hstep, hspends, fun h => absurd h hmissed, fun _ => hnext⟩

theorem Stuck.step (mailPath : Bytes) (hfrom : regexMail.rmatch mailFrom = true) (hto : regexMail.rmatch mailTo = true)
    {action : Action} (hworks : Works action) (size : Nat) (h : Stuck mailText mailFrom mailTo e) :
    ¬CutsAnswer e action ∧ ∃ seen e', exchangeStep mailPath e action = some (seen, e') ∧
      Spends mailFrom mailTo size e e' action ∧ Stuck mailText mailFrom mailTo e' := by
  obtain ⟨hshows, hmail, hwaits, hhears, hgone, hempty⟩ := h
  obtain ⟨hcuts, seen, e', hstep, hspends, hnext, -⟩ :=
    asks_step mailPath hfrom hto hshows hmail hwaits hhears hempty hworks size
  exact ⟨hcuts, seen, e', hstep, hspends, hnext hgone⟩

theorem stands_accepted {w : World} {server : Connection} (hoom : ∀ a, w.mem.oom a = false)
    (haccept : acceptConnection w = some server) (sendBuf receiveBuf : Option Bytes) :
    Stands mailText mailFrom mailTo
      (accepted (initConnection mailText mailFrom mailTo sendBuf receiveBuf) server) := by
  obtain ⟨server', hserver, hshows⟩ := acceptConnection_shows hoom
  obtain rfl := Option.some.inj (haccept.symm.trans hserver)
  have hreplied : Replied mailFrom mailTo .greeting greeted :=
    ⟨rfl, rfl, rfl, by simp [Accounts, Phase.next, greeted]⟩
  exact .told hshows ⟨rfl, rfl, rfl⟩ ⟨rfl, rfl, rfl⟩ (by decide) hreplied rfl hshows.sent

/-- How far a run has come. -/
structure Progress (mailText : List Bytes) (mailFrom mailTo : Bytes) (size : Nat)
    (history : List (Step Parties Action Seen)) (e : Parties) : Prop where
  place : ((∀ st ∈ history, ¬MissesEnd st.before st.input) ∧ Stands mailText mailFrom mailTo e) ∨
    ((∃ st ∈ history, MissesEnd st.before st.input) ∧ Stuck mailText mailFrom mailTo e)
  work : workLeft mailFrom mailTo size e + history.countP (fun st => Moves st.before st.input) ≤
    callsLeft mailFrom mailTo size .greeting

theorem Progress.step (hfrom : regexMail.rmatch mailFrom = true)
    (hto : regexMail.rmatch mailTo = true) (hfree : ∀ line ∈ mailText, NulFree line)
    (hne : mailText.flatten ≠ []) {action : Action} (hsound : SoundAction mailText action)
    (hworks : Works action) {size : Nat} (hsize : textSize mailText action ≤ size)
    {history : List (Step Parties Action Seen)}
    (h : Progress mailText mailFrom mailTo size history e)
    (hstep : exchangeStep mailPath e action = some (seen, e')) :
    Progress mailText mailFrom mailTo size (history ++ [⟨e, action, seen, e'⟩]) e' := by
  let now : Step Parties Action Seen := ⟨e, action, seen, e'⟩
  have hspent (hspends : Spends mailFrom mailTo size e e' action) :
      workLeft mailFrom mailTo size e' + (history ++ [now]).countP
        (fun st => Moves st.before st.input) ≤ callsLeft mailFrom mailTo size .greeting := by
    have hbefore := h.work
    rw [Spends] at hspends
    simp only [now, List.countP_append, List.countP_singleton, decide_eq_true_eq]
    omega
  rcases h.place with ⟨hfound, hstands⟩ | ⟨⟨st, hmem, hmissed⟩, hstuck⟩
  · rcases hstands.step mailPath hfrom hto hfree hne hsound hworks hsize with
      ⟨-, hnone⟩ | ⟨-, seen', e'', hstep', hspends, hmiss, hfind⟩
    · rw [hnone] at hstep
      cases hstep
    · obtain ⟨rfl, rfl⟩ := Prod.mk.inj (Option.some.inj (hstep.symm.trans hstep'))
      refine ⟨?_, hspent hspends⟩
      by_cases hmissed : MissesEnd e action
      · exact .inr ⟨⟨now, by simp [now], hmissed⟩, hmiss hmissed⟩
      · refine .inl ⟨fun st hmem => ?_, hfind hmissed⟩
        rcases List.mem_append.mp hmem with hpast | hnow
        · exact hfound st hpast
        · obtain rfl := List.mem_singleton.mp hnow
          exact hmissed
  · obtain ⟨-, seen', e'', hstep', hspends, hstuck'⟩ := hstuck.step mailPath hfrom hto hworks size
    obtain ⟨rfl, rfl⟩ := Prod.mk.inj (Option.some.inj (hstep.symm.trans hstep'))
    exact ⟨.inr ⟨⟨st, List.mem_append_left _ hmem, hmissed⟩, hstuck'⟩, hspent hspends⟩

theorem exchange_progress {w : World} {server : Connection} {sendBuf receiveBuf : Option Bytes}
    {actions : List Action} {history : List (Step Parties Action Seen)} {last : Parties} {size : Nat}
    (hfrom : regexMail.rmatch mailFrom = true) (hto : regexMail.rmatch mailTo = true)
    (hfree : ∀ line ∈ mailText, NulFree line) (hne : mailText.flatten ≠ [])
    (hoom : ∀ a, w.mem.oom a = false) (haccept : acceptConnection w = some server)
    (hsound : ∀ action ∈ actions, SoundAction mailText action)
    (hworks : ∀ action ∈ actions, Works action)
    (hsize : ∀ action ∈ actions, textSize mailText action ≤ size)
    (hexec : (exchangeMachine mailPath).exec
      (accepted (initConnection mailText mailFrom mailTo sendBuf receiveBuf) server) actions =
        some (history, last)) :
    Progress mailText mailFrom mailTo size history last := by
  let Inv (history : List (Step Parties Action Seen)) (e : Parties) : Prop :=
    (∀ st ∈ history, st.input ∈ actions) → Progress mailText mailFrom mailTo size history e
  have hinit : Inv [] (accepted (initConnection mailText mailFrom mailTo sendBuf receiveBuf) server) :=
    fun _ => ⟨.inl ⟨by simp, stands_accepted hoom haccept sendBuf receiveBuf⟩, le_rfl⟩
  have hstep : ∀ history e action seen e', Inv history e →
      (exchangeMachine mailPath).step e action = some (seen, e') →
        Inv (history ++ [⟨e, action, seen, e'⟩]) e' := by
    intro history e action seen e' hinv hstep hall
    have hmem : action ∈ actions := hall ⟨e, action, seen, e'⟩ (by simp)
    exact (hinv fun st hst => hall st (by simp [hst])).step hfrom hto hfree hne (hsound _ hmem)
      (hworks _ hmem) (hsize _ hmem) hstep
  obtain ⟨hlast, -⟩ := Machine.exec_steps hstep hinit hexec
  exact hlast fun st hmem => (Machine.exec_inputs hexec).1.subset (List.mem_map_of_mem hmem)

/-- An exchange in which no call fails comes to its end if and only if no read of the
client ends inside an answer. -/
theorem exchange_runs_iff {w : World} {server : Connection} {sendBuf receiveBuf : Option Bytes}
    {mailPath : Bytes} {actions : List Action} (hfrom : regexMail.rmatch mailFrom = true)
    (hto : regexMail.rmatch mailTo = true) (hfree : ∀ line ∈ mailText, NulFree line)
    (hne : mailText.flatten ≠ []) (hoom : ∀ a, w.mem.oom a = false)
    (haccept : acceptConnection w = some server)
    (hsound : ∀ action ∈ actions, SoundAction mailText action ∧ Works action) :
    ((exchangeMachine mailPath).exec
      (accepted (initConnection mailText mailFrom mailTo sendBuf receiveBuf) server)
        actions).isSome ↔
      (exchangeMachine mailPath).Throughout (fun e action => ¬CutsAnswer e action)
        (accepted (initConnection mailText mailFrom mailTo sendBuf receiveBuf) server) actions := by
  let Inv (e : Parties) : Prop := Stands mailText mailFrom mailTo e ∨ Stuck mailText mailFrom mailTo e
  have hstep : ∀ e action, Inv e → SoundAction mailText action ∧ Works action →
      ((exchangeStep mailPath e action).isSome ↔ ¬CutsAnswer e action) := by
    rintro e action (hstands | hstuck) ⟨hsound, hworks⟩
    · rcases hstands.step mailPath hfrom hto hfree hne hsound hworks le_rfl with
        ⟨hcuts, hnone⟩ | ⟨hcuts, seen, e', hsome, -⟩
      · simp [hnone, hcuts]
      · simp [hsome, hcuts]
    · obtain ⟨hcuts, seen, e', hsome, -⟩ := hstuck.step mailPath hfrom hto hworks 0
      simp [hsome, hcuts]
  have hkept : ∀ e action seen e', Inv e → SoundAction mailText action ∧ Works action →
      exchangeStep mailPath e action = some (seen, e') → Inv e' := by
    rintro e action seen e' (hstands | hstuck) ⟨hsound, hworks⟩ hstep
    · rcases hstands.step mailPath hfrom hto hfree hne hsound hworks le_rfl with
        ⟨-, hnone⟩ | ⟨-, seen', e'', hstep', -, hmiss, hfind⟩
      · rw [hnone] at hstep
        cases hstep
      · obtain ⟨-, rfl⟩ := Prod.mk.inj (Option.some.inj (hstep.symm.trans hstep'))
        by_cases hmissed : MissesEnd e action
        · exact .inr (hmiss hmissed)
        · exact .inl (hfind hmissed)
    · obtain ⟨-, seen', e'', hstep', -, hstuck'⟩ := hstuck.step mailPath hfrom hto hworks 0
      obtain ⟨-, rfl⟩ := Prod.mk.inj (Option.some.inj (hstep.symm.trans hstep'))
      exact .inr hstuck'
  have hinit : Inv (accepted (initConnection mailText mailFrom mailTo sendBuf receiveBuf) server) :=
    .inl (stands_accepted hoom haccept sendBuf receiveBuf)
  exact @Machine.exec_isSome_iff _ _ _ (exchangeMachine mailPath) _ _ Inv hstep hkept _ hinit _ hsound

theorem talk_works (rounds : List (List Nat)) : ∀ action ∈ talk rounds, Works action := by
  intro action hmem
  rcases List.mem_cons.mp hmem with rfl | hmem
  · trivial
  · obtain ⟨reads, -, hround⟩ := List.mem_flatMap.mp hmem
    simp only [Agreement.round, List.cons_append, List.mem_cons, List.mem_append, List.mem_map,
      List.not_mem_nil, or_false] at hround
    rcases hround with rfl | ⟨n, -, rfl⟩ | rfl <;> trivial

theorem exchange_runs_iff_newConn : ∃ server, acceptConnection idle = some server ∧
    (((exchangeMachine (ascii "./mail")).exec (accepted newConn server)
      (talk (List.replicate 6 [100]))).isSome ↔
        (exchangeMachine (ascii "./mail")).Throughout (fun e action => ¬CutsAnswer e action)
          (accepted newConn server) (talk (List.replicate 6 [100]))) := by
  have haccepts : (acceptConnection idle).isSome := by decide +kernel
  obtain ⟨server, haccept⟩ := Option.isSome_iff_exists.mp haccepts
  exact ⟨server, haccept, exchange_runs_iff (by decide) (by decide) (by decide) (by decide)
    (fun _ => rfl) haccept fun action hmem => ⟨talk_sound _ action hmem, talk_works _ action hmem⟩⟩

/-- However the two sides are called, only a bounded number of calls moves bytes. -/
theorem exchange_terminates {w : World} {server : Connection} {sendBuf receiveBuf : Option Bytes}
    {mailPath : Bytes} {actions : List Action} {history : List (Step Parties Action Seen)}
    {last : Parties} {size : Nat} (hfrom : regexMail.rmatch mailFrom = true)
    (hto : regexMail.rmatch mailTo = true) (hfree : ∀ line ∈ mailText, NulFree line)
    (hne : mailText.flatten ≠ []) (hoom : ∀ a, w.mem.oom a = false)
    (haccept : acceptConnection w = some server)
    (hsound : ∀ action ∈ actions, SoundAction mailText action)
    (hworks : ∀ action ∈ actions, Works action)
    (hsize : ∀ action ∈ actions, textSize mailText action ≤ size)
    (hexec : (exchangeMachine mailPath).exec
      (accepted (initConnection mailText mailFrom mailTo sendBuf receiveBuf) server) actions =
        some (history, last)) :
    history.countP (fun st => Moves st.before st.input) ≤
      callsLeft mailFrom mailTo size .greeting := by
  have hprogress := exchange_progress hfrom hto hfree hne hoom haccept hsound hworks hsize hexec
  exact (Nat.le_add_left _ _).trans hprogress.work

theorem exchange_terminates_newConn : ∃ server history last, acceptConnection idle = some server ∧
    (exchangeMachine (ascii "./mail")).exec (accepted newConn server)
      (talk (List.replicate 6 [100])) = some (history, last) ∧
    history.countP (fun st => Moves st.before st.input) ≤
      callsLeft (ascii "a@b") (ascii "c@d") 4 .greeting := by
  have hsize : ∀ action ∈ talk (List.replicate 6 [100]), textSize newConn.mailText action ≤ 4 := by
    decide
  have hrun : ((acceptConnection idle).bind fun server =>
      (exchangeMachine (ascii "./mail")).exec (accepted newConn server)
        (talk (List.replicate 6 [100]))).isSome := by
    decide +kernel
  obtain ⟨⟨history, last⟩, hrun⟩ := Option.isSome_iff_exists.mp hrun
  obtain ⟨server, haccept, hexec⟩ := Option.bind_eq_some_iff.mp hrun
  exact ⟨server, history, last, haccept, hexec,
    exchange_terminates (by decide) (by decide) (by decide) (by decide) (fun _ => rfl) haccept
      (talk_sound _) (talk_works _) hsize hexec⟩

/-- When there is nothing left to send, to read or to answer, the mail has been taken and
both sides have finished, unless a read of the server has missed the end of a request: then
both wait for ever. -/
theorem exchange_completes_iff {w : World} {server : Connection} {sendBuf receiveBuf : Option Bytes}
    {mailPath : Bytes} {actions : List Action} {history : List (Step Parties Action Seen)}
    {last : Parties} (hfrom : regexMail.rmatch mailFrom = true)
    (hto : regexMail.rmatch mailTo = true) (hfree : ∀ line ∈ mailText, NulFree line)
    (hne : mailText.flatten ≠ []) (hoom : ∀ a, w.mem.oom a = false)
    (haccept : acceptConnection w = some server)
    (hsound : ∀ action ∈ actions, SoundAction mailText action)
    (hworks : ∀ action ∈ actions, Works action)
    (hexec : (exchangeMachine mailPath).exec
      (accepted (initConnection mailText mailFrom mailTo sendBuf receiveBuf) server) actions =
        some (history, last)) (hrest : AtRest last) :
    Over mailFrom mailTo last ↔ ∀ st ∈ history, ¬MissesEnd st.before st.input := by
  have hsize : ∀ action ∈ actions,
      textSize mailText action ≤ (actions.map (textSize mailText)).sum := fun action hmem =>
    List.le_sum_of_mem (List.mem_map_of_mem hmem)
  have hprogress := exchange_progress hfrom hto hfree hne hoom haccept hsound hworks hsize hexec
  rcases hprogress.place with ⟨hfound, hstands⟩ | ⟨⟨st, hmem, hmissed⟩, hstuck⟩
  · refine iff_of_true ?_ hfound
    cases hstands with
    | asks hshows hmail hwaits hhears hahead hempty =>
      have hnil := hwaits.unsent.symm.trans hrest.unsent
      rw [Option.some_inj] at hnil
      exact absurd (by rw [hrest.toServer, hnil]; rfl) hahead.ne_nil
    | @told p s hshows hmail hwaits hp hreplied hserver hclient =>
      have hreply : ascii p.reply = [] := hclient.symm.trans hrest.toClient
      cases p <;> first | exact absurd rfl hp | exact absurd hreply (by decide)
    | done hover => exact hover
  · refine iff_of_false (fun hover => ?_) fun hall => hall st hmem hmissed
    obtain ⟨-, -, hwaits, hhears, -, -⟩ := hstuck
    have hended := congrArg phaseOf (hwaits.state.symm.trans hover.finished)
    rw [phaseOf_waits] at hended
    exact hhears.not_ended hended

theorem exchange_completes_iff_newConn : ∃ server history last,
    acceptConnection idle = some server ∧
    (exchangeMachine (ascii "./mail")).exec (accepted newConn server)
      (talk (List.replicate 6 [100])) = some (history, last) ∧ AtRest last ∧
    (Over (ascii "a@b") (ascii "c@d") last ↔ ∀ st ∈ history, ¬MissesEnd st.before st.input) := by
  have hrun : ((acceptConnection idle).bind fun server =>
      ((exchangeMachine (ascii "./mail")).exec (accepted newConn server)
        (talk (List.replicate 6 [100]))).map fun r =>
          (unsent r.2.client, r.2.toServer, r.2.toClient)) = some (some [], [], []) := by
    decide +kernel
  obtain ⟨server, haccept, hrun⟩ := Option.bind_eq_some_iff.mp hrun
  obtain ⟨⟨history, last⟩, hexec, hlast⟩ := Option.map_eq_some_iff.mp hrun
  obtain ⟨hunsent, hchannels⟩ := Prod.mk.inj hlast
  obtain ⟨hserver, hclient⟩ := Prod.mk.inj hchannels
  have hrest : AtRest last := ⟨hunsent, hserver, hclient⟩
  exact ⟨server, history, last, haccept, hexec, hrest,
    exchange_completes_iff (by decide) (by decide) (by decide) (by decide) (fun _ => rfl) haccept
      (talk_sound _) (talk_works _) hexec hrest⟩

/-- The server reads the CR and the LF of the EHLO apart, and both sides wait. -/
example : ((acceptConnection idle).bind fun server =>
    ((exchangeMachine (ascii "./mail")).exec (accepted newConn server) (talk [[18, 100]])).map
      fun r => (r.2.client.state, unsent r.2.client, r.2.toServer)) =
    some (.initialized, some [], []) := by
  decide +kernel

end Run

end SmtpMta.Exchange.Completion
