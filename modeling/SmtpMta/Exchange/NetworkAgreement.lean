import SmtpMta.Exchange.ManyClients

/-! What the clients of one server may believe. A client that has been told that its mail was
taken is right, whatever the others do and whichever mails they bring. -/
namespace SmtpMta.Exchange.NetworkAgreement
open Library.CString Library.Crlf Library.Trace Client.Fsm Client.Queue Client.ReplyParser
  Client.Transfer Client.ReplyFraming Server Server.Smtp Server.ReadLoop Server.Protocol
  Server.SessionInvariant Server.Reading Server.MainLoop TwoParties Phases Agreement TextAgreement
  ManyClients

structure Post where
  text : List Bytes
  mailFrom : Bytes
  mailTo : Bytes
  sendBuf : Option Bytes
  receiveBuf : Option Bytes

def Post.conn (m : Post) : Conn :=
  initConnection m.text m.mailFrom m.mailTo m.sendBuf m.receiveBuf

structure Post.Valid (m : Post) : Prop where
  sender : regexMail.rmatch m.mailFrom = true
  recipient : regexMail.rmatch m.mailTo = true
  free : ∀ line ∈ m.text, NulFree line
  nonempty : m.text.flatten ≠ []

/-- The client has sent its QUIT, or has had the answer to it. -/
def BelievesIn (session : Nat) (history : List (Step Network Move Report)) (l : Link) : Prop :=
  l.client.state = .sQuit ∨ (l.client.state = .finish ∧
    ∃ call ∈ history.filterMap (clientIn session), call.1.state = .sQuit ∧ call.2.2.event = some .ok)

/-- What a client may have taken for the text of its mail. -/
def TakenBy (text : List Bytes) (session : Nat) (moves : List Move) (taken : Bytes) : Prop :=
  ∃ around n, Move.client session (.clientReads around n) ∈ moves ∧ taken = queuedText text around.behind

section Agreement
variable {texts : Bytes → Prop} {mailFrom mailTo : Bytes} {calls calls' : List Call}

theorem textAgreed_same (h : TextAgreed texts mailFrom mailTo calls)
    (hsame : List.Forall₂ SameCall calls calls') : TextAgreed texts mailFrom mailTo calls' := by
  obtain ⟨call, text, lines, hfilter, hsender, hrecipients, hdata, htext, hjoin⟩ := h
  have hends {call call' : Call} (h : SameCall call call') : EndOfData call ↔ EndOfData call' := by
    obtain ⟨a, hcall, hcall'⟩ := h
    rw [endOfData_iff hcall, endOfData_iff hcall']
  have hfilters : List.Forall₂ SameCall (calls.filter EndOfData) (calls'.filter EndOfData) :=
    List.rel_filter (fun call call' h => by simpa using hends h) hsame
  rw [hfilter] at hfilters
  obtain ⟨call', rest, hcall, hnil, hfilter'⟩ := List.forall₂_cons_left_iff.mp hfilters
  obtain rfl := List.forall₂_nil_left_iff.mp hnil
  obtain ⟨a, ⟨⟨bs, rs, ls, hfits⟩, -, -⟩, ⟨⟨bs', rs', ls', hfits'⟩, -, -⟩⟩ := hcall
  rw [hfits.sender] at hsender
  rw [hfits.recipients.foreachText hfits.length_le.2.1] at hrecipients
  rw [hfits.data.foreachText hfits.length_le.2.2] at hdata
  refine ⟨call', text, lines, hfilter', hfits'.sender.trans hsender, ?_, ?_, htext, hjoin⟩
  · rw [hfits'.recipients.foreachText hfits'.length_le.2.1, hrecipients]
  · rw [hfits'.data.foreachText hfits'.length_le.2.2, hdata]

variable {mailPath : Bytes} {serverSocket : Descriptor} {clients : Nat → Conn} {mem : Memory}
  {dirs : Maildirs} {moves : List Move} {history : List (Step Network Move Report)} {last : Network}

theorem clientIn_eq_some {session : Nat} {st : Step Network Move Report} {call : Conn × Action × Seen}
    (h : clientIn session st = some call) :
    st.output = .client session call.2.1 (some call.2.2) ∧ byClient call.2.1 = true := by
  unfold clientIn at h
  split at h
  · rename_i other action seen houtput
    split at h
    · rename_i hclient
      obtain ⟨l, -, rfl⟩ := Option.map_eq_some_iff.mp h
      exact ⟨by rw [houtput, hclient.1], hclient.2⟩
    · cases h
  · cases h

theorem client_moved (hexec : (networkMachine mailPath serverSocket clients).exec
    (startNetwork serverSocket mem dirs) moves = some (history, last)) {session : Nat}
    {call : Conn × Action × Seen} (hmem : call ∈ history.filterMap (clientIn session)) :
    Move.client session call.2.1 ∈ moves := by
  obtain ⟨st, hst, hcall⟩ := List.mem_filterMap.mp hmem
  have hinput : st.input = .client session call.2.1 := by
    have hstep : move mailPath serverSocket clients st.before st.input = some (st.output, st.after) :=
      Machine.exec_step hexec hst
    obtain ⟨houtput, -⟩ := clientIn_eq_some hcall
    rcases move_cases hstep with ⟨other, action, hinput, hmove⟩ | ⟨hwaits, -⟩ |
      ⟨input, output, server, -, -, -, hserver, -⟩
    · rcases clientMove_cases hmove with ⟨hwaits, -⟩ | ⟨l, l', seen, -, -, hreport, -⟩
      · rw [houtput] at hwaits
        cases hwaits
      · rw [houtput] at hreport
        obtain ⟨rfl, rfl, -⟩ := Report.client.inj hreport
        exact hinput
    · rw [houtput] at hwaits
      cases hwaits
    · rw [houtput] at hserver
      cases hserver
  rw [← hinput]
  exact (Machine.exec_inputs hexec).1.subset (List.mem_map_of_mem hst)

theorem network_agreed {m : Post} {session : Nat} {l : Link} (hvalid : m.Valid)
    (hclient : clients session = m.conn) (hquiet : ∀ mv ∈ moves, Quiet mv)
    (hsound : ∀ action, Move.client session action ∈ moves → SoundAction m.text action)
    (hexec : (networkMachine mailPath serverSocket clients).exec
      (startNetwork serverSocket mem dirs) moves = some (history, last))
    (hlink : last.links session = some l) (hstopped : l.stopped = false)
    (hbelieves : BelievesIn session history l) :
    TextAgreed (TakenBy m.text session moves) m.mailFrom m.mailTo (callsOf session history) := by
  obtain ⟨lines, -, hexchanges⟩ := (network_paired hquiet hexec).exchanges
  obtain ⟨world, start, actions, past, server, s, hoom, haccept, hrun, hfollows⟩ :=
    hexchanges session l hlink hstopped
  rw [hclient, Post.conn] at hrun
  let texts := TakenBy m.text session moves
  -- what is called in the exchange has been a move, unless the server reads
  have hmoved : ∀ action ∈ actions, byClient action = true → Move.client session action ∈ moves := by
    intro action hmem hclient
    have hinputs := (Machine.exec_inputs hrun).2 hfollows.goes
    rw [← hinputs] at hmem
    obtain ⟨st, hst, rfl⟩ := List.mem_map.mp hmem
    have hcall : (st.before.client, st.input, st.output) ∈ past.filterMap clientSide :=
      List.mem_filterMap.mpr ⟨st, hst, by simp [clientSide, hclient]⟩
    rw [hfollows.client] at hcall
    exact client_moved hexec hcall
  have hsound' : ∀ action ∈ actions, SoundAction m.text action := by
    intro action hmem
    cases hclient : byClient action with
    | true => exact hsound action (hmoved action hmem hclient)
    | false => cases action <;> trivial
  have hoffers : ∀ action ∈ actions, Offers texts m.text action := by
    intro action hmem
    cases action with
    | clientReads around n => exact ⟨around, n, hmoved _ hmem rfl, rfl⟩
    | _ => trivial
  have hcarried := exchange_carried hvalid.sender hvalid.recipient hvalid.free hvalid.nonempty hoom
    haccept hsound' hoffers hrun
  have hpast : Believes past (l.parties server) := by
    refine hbelieves.imp_right fun hfinish => hfinish.imp_right fun htold => ?_
    obtain ⟨call, hmem, hstate, hevent⟩ := htold
    rw [← hfollows.client] at hmem
    obtain ⟨st, hst, hcall⟩ := List.mem_filterMap.mp hmem
    obtain ⟨-, rfl⟩ : _ ∧ (st.before.client, st.input, st.output) = call := by
      simpa [clientSide] using hcall
    exact ⟨st, hst, hstate, hevent⟩
  exact textAgreed_same (hcarried.agreed hpast) (sameCalls hfollows.shows.calls hfollows.calls)

/-- The server has taken the mail of a client that believes so, once, as it was meant. -/
theorem network_agreement (mailPath : Bytes) (serverSocket : Descriptor) (posts : Nat → Post)
    {mem : Memory} {dirs : Maildirs} {moves : List Move} {history : List (Step Network Move Report)}
    {last : Network} {session : Nat} {l : Link} (hvalid : (posts session).Valid)
    (hquiet : ∀ mv ∈ moves, Quiet mv)
    (hsound : ∀ action, Move.client session action ∈ moves → SoundAction (posts session).text action)
    (hexec : (networkMachine mailPath serverSocket fun k => (posts k).conn).exec
      (startNetwork serverSocket mem dirs) moves = some (history, last))
    (hlink : last.links session = some l) (hstopped : l.stopped = false)
    (hbelieves : BelievesIn session history l) :
    TextAgreed (TakenBy (posts session).text session moves) (posts session).mailFrom
      (posts session).mailTo (callsOf session history) :=
  network_agreed hvalid rfl hquiet hsound hexec hlink hstopped hbelieves

end Agreement

section Crossing

/-- The second mail is for somebody else. -/
def posts (session : Nat) : Post :=
  ⟨[ascii "hi\r\n"], ascii "a@b", if session = 0 then ascii "c@d" else ascii "e@f",
    some (List.replicate initBufSize nul), some (List.replicate initBufSize nul)⟩

theorem posts_valid (session : Nat) : (posts session).Valid := by
  have hmail : regexMail.rmatch (ascii "a@b") = true ∧ regexMail.rmatch (ascii "c@d") = true ∧
      regexMail.rmatch (ascii "e@f") = true := by
    decide
  refine ⟨hmail.1, ?_, fun line hline => ?_, (by decide : [ascii "hi\r\n"].flatten ≠ [])⟩
  · by_cases hsession : session = 0
    · simpa [posts, hsession] using hmail.2.1
    · simpa [posts, hsession] using hmail.2.2
  · obtain rfl := List.mem_singleton.mp hline
    decide

theorem crossing_ends : ∃ history last l,
    (networkMachine (ascii "./mail") listener fun k => (posts k).conn).exec
      (startNetwork listener emptyMemory fun _ _ => []) crossing = some (history, last) ∧
    last.links 1 = some l ∧ l.stopped = false ∧ BelievesIn 1 history l := by
  have hrun : ((networkMachine (ascii "./mail") listener fun k => (posts k).conn).exec
      (startNetwork listener emptyMemory fun _ _ => []) crossing).bind (fun r => (r.2.links 1).map
        fun l => (l.stopped, l.client.state, (r.1.filterMap (clientIn 1)).any fun call =>
          call.1.state = .sQuit ∧ call.2.2.event = some .ok)) = some (false, .finish, true) := by
    decide +kernel
  obtain ⟨⟨history, last⟩, hexec, hlast⟩ := Option.bind_eq_some_iff.mp hrun
  obtain ⟨l, hlink, hl⟩ := Option.map_eq_some_iff.mp hlast
  obtain ⟨hstopped, hmore⟩ := Prod.mk.inj hl
  obtain ⟨hstate, htold⟩ := Prod.mk.inj hmore
  obtain ⟨call, hmem, hok⟩ := List.any_eq_true.mp htold
  exact ⟨history, last, l, hexec, hlink, hstopped, .inr ⟨hstate, call, hmem, by simpa using hok⟩⟩

theorem crossing_sound : ∀ mv ∈ crossing, ∀ session action, mv = .client session action →
    SoundAction newConn.mailText action :=
  crossing_all (fun _ _ _ _ _ h => by cases h) (fun _ _ _ _ h => by cases h; exact calm_sound)
    fun _ _ _ _ h => by cases h; exact calm_sound

theorem network_agreement_crossing : ∃ history last l,
    (networkMachine (ascii "./mail") listener fun k => (posts k).conn).exec
      (startNetwork listener emptyMemory fun _ _ => []) crossing = some (history, last) ∧
    last.links 1 = some l ∧ BelievesIn 1 history l ∧
    TextAgreed (TakenBy (posts 1).text 1 crossing) (ascii "a@b") (ascii "e@f") (callsOf 1 history) := by
  obtain ⟨history, last, l, hexec, hlink, hstopped, hbelieves⟩ := crossing_ends
  exact ⟨history, last, l, hexec, hlink, hbelieves,
    network_agreement (ascii "./mail") listener posts (posts_valid 1) crossing_quiet
      (fun action hmem => crossing_sound _ hmem 1 action rfl) hexec hlink hstopped hbelieves⟩

end Crossing

end SmtpMta.Exchange.NetworkAgreement
