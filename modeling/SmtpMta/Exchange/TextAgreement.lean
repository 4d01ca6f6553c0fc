import SmtpMta.Exchange.Completion

/-! What the server takes for the text of the mail. Wherever the reads cut it, the lines so
far and what is held give back the bytes that were read; the lines are listed with the first
in front and the others in reverse. -/
namespace SmtpMta.Exchange.TextAgreement
open Library.CString Library.Crlf Library.Trace Client.Fsm Client.Queue Client.ReplyParser
  Client.Transfer Client.ReplyFraming Client.Advance Server.Smtp Server.ReadLoop Server.Lines
  Server.Protocol Server.Commands Server.SessionInvariant Server.Reading TwoParties Phases
  Agreement RequestEnds Completion

def listed (lines : List Bytes) : List Bytes :=
  lines.take 1 ++ lines.tail.reverse

theorem insertSecond_listed (line : Bytes) (lines : List Bytes) :
    insertSecond line (listed lines) = listed (lines ++ [line]) := by
  cases lines <;> simp [listed, insertSecond]

/-- Some lines of a text have been stored; the rest is held or still to come. -/
def Heard (texts : Bytes → Prop) (d : Dialogue) (coming : Bytes) : Prop :=
  ∃ text lines, texts text ∧ d.lines = listed lines ∧
    joinCrlf lines (d.held.flatten ++ coming) = text ++ crlf ++ dotLine

/-- One message has been taken, with the lines of a text. -/
def TextTaken (texts : Bytes → Prop) (answers : List Answered) : Prop :=
  ∃ a text lines, answers.filter Takes = [a] ∧ texts text ∧ a.before.lines = listed lines ∧
    joinCrlf lines [] = text ++ crlf

/-- The text in a phase whose request is under way. -/
structure Keeps (texts : Bytes → Prop) (p : Phase) (s : Served) (coming : Bytes) : Prop where
  before : p ≠ .text → p ≠ .quit → s.dialogue.lines = []
  during : p = .text → Heard texts s.dialogue coming
  after : p = .quit → TextTaken texts s.answers

/-- The text in a phase that has been answered. -/
structure Kept (texts : Bytes → Prop) (p : Phase) (s : Served) : Prop where
  before : p ≠ .text → p ≠ .quit → s.dialogue.lines = []
  after : p = .text ∨ p = .quit → TextTaken texts s.answers

section Server
variable {texts : Bytes → Prop} {mailFrom mailTo : Bytes} {p : Phase} {s s' : Served}
  {piece coming : Bytes}

theorem TextTaken.append {answers : List Answered} (h : TextTaken texts answers) {a : Answered}
    (ha : ¬Takes a) : TextTaken texts (answers ++ [a]) := by
  obtain ⟨b, text, lines, hfilter, hkept⟩ := h
  exact ⟨b, text, lines, by simp [hfilter, ha], hkept⟩

theorem answer_lines {alloc : Bool} {command : Bytes} {d d' : Dialogue} {ret : Int}
    {reply : Option String} (hstate : d.state ≠ .mailData) (hlines : d.lines = [])
    (h : answer alloc command d = some (ret, reply, d')) : d'.lines = [] := by
  have houtcome : Outcome alloc command { d with held := [] } ret reply d' := answer_outcome rfl h
  cases houtcome with
  | ended hdata | stored hdata | dropped hdata => exact absurd hdata hstate
  | reset => rfl
  | sender | recipient | started | refused => exact hlines

theorem obey_kept (h : Hears mailFrom mailTo p s (piece ++ crlf ++ coming)) (hp : p ≠ .text)
    (hkeeps : Keeps texts p s (piece ++ crlf ++ coming)) (hobey : obey s piece = some s') :
    Kept texts p s' := by
  have hstate := stage_not_data hp h.stage
  simp only [obey, h.opened, Bool.false_eq_true, if_false] at hobey
  obtain ⟨⟨ret, text, d'⟩, hanswer, rfl⟩ := Option.map_eq_some_iff.mp hobey
  refine ⟨fun hp hquit => answer_lines hstate (hkeeps.before hp hquit) hanswer, fun hlate => ?_⟩
  exact (hkeeps.after (hlate.resolve_left hp)).append fun htakes => hstate htakes.1

theorem obey_heard (hfrom : regexMail.rmatch mailFrom = true) (hto : regexMail.rmatch mailTo = true)
    (h : Hears mailFrom mailTo .text s (piece ++ crlf ++ coming))
    (hheard : Heard texts s.dialogue (piece ++ crlf ++ coming)) (hobey : obey s piece = some s') :
    (Hears mailFrom mailTo .text s' coming → Heard texts s'.dialogue coming) ∧
      (coming = [] → Replied mailFrom mailTo .text s' → TextTaken texts s'.answers) := by
  obtain ⟨text, lines, htext, hlisted, hjoin⟩ := hheard
  have hstate : s.dialogue.state = .mailData := congrArg Prod.fst h.stage
  have hleaves := obey_state hfrom hto h hobey
  by_cases hdot : s.dialogue.held.flatten ++ piece = ascii "."
  · refine ⟨fun hhears => absurd (congrArg Prod.fst hhears.stage) fun hdata =>
      hleaves.mp hdata hdot, fun hcoming _ => ?_⟩
    simp only [obey, h.opened, Bool.false_eq_true, if_false, hdot, answer_dot hstate,
      Option.map_some, Option.some_inj] at hobey
    obtain rfl := hobey
    have hnone : s.answers.filter Takes = [] := h.accounts
    have htakes : Takes ⟨s.dialogue, ascii ".", ascii "250 OK\r\n"⟩ := ⟨hstate, rfl, rfl⟩
    refine ⟨⟨s.dialogue, ascii ".", ascii "250 OK\r\n"⟩, text, lines, ?_, htext, hlisted, ?_⟩
    · rw [List.filter_append, hnone, List.nil_append]
      exact List.filter_cons_of_pos (decide_eq_true htakes)
    · rw [hcoming, List.append_nil, ← List.append_assoc, hdot, ← List.nil_append (ascii "." ++ crlf),
        joinCrlf_tail_append, dotLine] at hjoin
      exact List.append_cancel_right hjoin
  · refine ⟨fun _ => ⟨text, lines ++ [s.dialogue.held.flatten ++ piece], htext, ?_, ?_⟩,
      fun _ hreplied => absurd hreplied (not_replied_of_mailData (hleaves.mpr hdot))⟩
    · have hfree : NulFree (s.dialogue.held.flatten ++ piece) := by
        have hall := Hears.nulFree_held hfrom hto h
        rw [← List.append_assoc, ← List.append_assoc] at hall
        exact (nulFree_append.mp (nulFree_append.mp hall).1).1
      have hline : cstr (s.dialogue.held.flatten ++ piece) ≠ ascii "." := by
        rwa [cstr_of_nulFree hfree]
      simp only [obey, h.opened, Bool.false_eq_true, if_false, answer_line hstate hline,
        Option.map_some, Option.some_inj] at hobey
      obtain rfl := hobey
      dsimp only
      rw [cstr_of_nulFree hfree, hlisted, insertSecond_listed]
    · rw [obey_held hobey, List.flatten_nil, List.nil_append, joinCrlf_append, joinCrlf_cons,
        joinCrlf_nil, ← hjoin]
      simp

theorem take_done {pieces : List Bytes} {tail : Bytes} (h : joinCrlf pieces tail ++ coming = [])
    (htake : take (pieces, tail) s = some s') : s' = s ∧ coming = [] := by
  obtain ⟨hjoin, hcoming⟩ := List.append_eq_nil_iff.mp h
  have hlines := length_le_joinCrlf pieces tail
  rw [hjoin, List.length_nil, Nat.le_zero, List.length_eq_zero_iff] at hlines
  subst hlines
  obtain rfl : tail = [] := hjoin
  exact ⟨by simpa [take, hold] using htake.symm, hcoming⟩

theorem take_keeps (hfrom : regexMail.rmatch mailFrom = true) (hto : regexMail.rmatch mailTo = true)
    (split : List Bytes × Bytes)
    (h : Hears mailFrom mailTo p s (joinCrlf split.1 split.2 ++ coming))
    (hkeeps : Keeps texts p s (joinCrlf split.1 split.2 ++ coming)) (hreply : s.reply = [])
    (htake : take split s = some s') :
    (Hears mailFrom mailTo p s' coming → Keeps texts p s' coming) ∧
      (coming = [] → Replied mailFrom mailTo p s' → Kept texts p s') := by
  obtain ⟨pieces, tail⟩ := split
  induction pieces generalizing s with
  | nil =>
    rw [joinCrlf_nil] at h hkeeps
    by_cases htail : tail = []
    · obtain rfl : s = s' := by simpa [take, hold, htail] using htake
      rw [htail, List.nil_append] at h hkeeps
      exact ⟨fun _ => hkeeps, fun _ hreplied => absurd hreplied (Hears.not_replied h)⟩
    · obtain rfl : { s with dialogue := { s.dialogue with held := s.dialogue.held ++ [tail] } } = s' := by
        simpa [take, hold, htail, h.opened] using htake
      refine ⟨fun _ => ⟨hkeeps.before, fun hp => ?_, hkeeps.after⟩, fun _ hreplied => ?_⟩
      · obtain ⟨text, lines, htext, hlisted, hjoin⟩ := hkeeps.during hp
        exact ⟨text, lines, htext, hlisted, by simpa using hjoin⟩
      · exact absurd hreplied.held (by simp)
  | cons piece pieces ih =>
    have hsplit : joinCrlf (piece :: pieces) tail ++ coming =
        piece ++ crlf ++ (joinCrlf pieces tail ++ coming) := by simp
    rw [hsplit] at h hkeeps
    rw [take_cons] at htake
    obtain ⟨s₁, hobey, htake⟩ := Option.bind_eq_some_iff.mp htake
    have hends (hcoming : joinCrlf pieces tail ++ coming = [])
        (hreplied : Replied mailFrom mailTo p s₁) (hkept : Kept texts p s₁) :
        (Hears mailFrom mailTo p s' coming → Keeps texts p s' coming) ∧
          (coming = [] → Replied mailFrom mailTo p s' → Kept texts p s') := by
      obtain ⟨rfl, -⟩ := take_done hcoming htake
      exact ⟨fun hhears => absurd hreplied (Hears.not_replied hhears), fun _ _ => hkept⟩
    by_cases hp : p = .text
    · subst hp
      obtain ⟨hgoes, htaken⟩ := obey_heard hfrom hto h (hkeeps.during rfl) hobey
      obtain ⟨s₂, hobey₂, hnext⟩ := h.obey_text hreply
      obtain rfl := Option.some.inj (hobey.symm.trans hobey₂)
      rcases hnext with ⟨-, hreply₁, hhears⟩ | ⟨hcoming, -, hreplied⟩
      · exact ih hreply₁ hhears ⟨by simp, fun _ => hgoes hhears, by simp⟩ htake
      · exact hends hcoming hreplied ⟨by simp, fun _ => htaken hcoming hreplied⟩
    · obtain ⟨s₂, hobey₂, hcoming, -, hreplied⟩ := h.obey_line hfrom hto hp
      obtain rfl := Option.some.inj (hobey.symm.trans hobey₂)
      exact hends hcoming hreplied (obey_kept h hp hkeeps hobey)

theorem read_keeps (hfrom : regexMail.rmatch mailFrom = true) (hto : regexMail.rmatch mailTo = true)
    {input : Bytes} (h : Hears mailFrom mailTo p s (input ++ coming))
    (hkeeps : Keeps texts p s (input ++ coming)) (hread : readText s (cstr input) = some s') :
    (Hears mailFrom mailTo p s' coming → Keeps texts p s' coming) ∧
      (coming = [] → Replied mailFrom mailTo p s' → Kept texts p s') := by
  obtain ⟨htake, -⟩ := read_cases hfrom hto h hread
  have hjoin : joinCrlf (scanCrlf false input).1 (scanCrlf false input).2 = input :=
    joinCrlf_scanCrlf false input
  rw [← hjoin] at h hkeeps
  have hblank : Hears mailFrom mailTo p { s with reply := [] }
      (joinCrlf (scanCrlf false input).1 (scanCrlf false input).2 ++ coming) :=
    ⟨h.opened, h.stage, h.accounts, h.pending⟩
  exact take_keeps hfrom hto (scanCrlf false input) hblank
    ⟨hkeeps.before, hkeeps.during, hkeeps.after⟩ rfl htake

theorem Kept.next (h : Kept texts p s) (hp : p ≠ .quit) {request : Bytes}
    (hheld : s.dialogue.held = []) (hrequest : p = .data → ∃ text, texts text ∧
      request = text ++ ascii "\r\n.\r\n") : Keeps texts p.next s request where
  before hnext hquit := h.before (by rintro rfl; exact hquit rfl) hp
  during hnext := by
    obtain rfl : p = .data := by cases p <;> simp_all [Phase.next]
    obtain ⟨text, htext, rfl⟩ := hrequest rfl
    have hend : ascii "\r\n.\r\n" = crlf ++ dotLine := by decide
    exact ⟨text, [], htext, h.before (by simp) (by simp), by simp [hheld, hend]⟩
  after hnext := by
    obtain rfl : p = .text := by cases p <;> simp_all [Phase.next]
    exact h.after (.inl rfl)

end Server

section Run
variable (texts : Bytes → Prop) (mailText : List Bytes) (mailFrom mailTo : Bytes)

/-- One message has been taken in these calls, from the sender and for the recipient alone,
and its lines are those of a text. -/
def TextAgreed (calls : List Call) : Prop :=
  ∃ call text lines, calls.filter EndOfData = [call] ∧
    call.before.session.envelope.mailFrom = some mailFrom ∧
    foreachText call.before.mem call.before.session.envelope.recipients = some [mailTo] ∧
    foreachText call.before.mem call.before.session.envelope.data = some (listed lines) ∧
    texts text ∧ joinCrlf lines [] = text ++ crlf

/-- The session is over, and the text stays what it is. -/
structure Settled (c : Connection) : Prop where
  closed : c.closed = true
  agreed : TextAgreed texts mailFrom mailTo c.calls

/-- Where the text of an exchange can be. -/
inductive Delivers (e : Parties) : Prop where
  | asks {p : Phase} {s : Served} {queued : Bytes} : Shows e.server s →
      Carries mailText mailFrom mailTo e.client → Waits p e.client queued →
      Hears mailFrom mailTo p s (e.toServer ++ queued) →
      Keeps texts p s (e.toServer ++ queued) → e.toClient = [] → Delivers e
  | told {p : Phase} {s : Served} : Shows e.server s →
      Carries mailText mailFrom mailTo e.client → Waits p e.client [] → p ≠ .ended →
      Replied mailFrom mailTo p s → Kept texts p s → e.toServer = [] →
      e.toClient = ascii p.reply → Delivers e
  | settled : Settled texts mailFrom mailTo e.server → Delivers e
  | adrift : Adrift e.client.state → Delivers e

/-- The invariant of a run; an answer to QUIT settles it. -/
structure Carried (history : List (Step Parties Action Seen)) (e : Parties) : Prop where
  delivers : Delivers texts mailText mailFrom mailTo e
  told : (∃ st ∈ history, st.before.client.state = .sQuit ∧ st.output.event = some .ok) →
    Settled texts mailFrom mailTo e.server

variable {texts mailText mailFrom mailTo} {e e' : Parties} {seen : Seen} {mailPath : Bytes}

theorem textAgreed_of_shows {calls : List Call} {answers : List Answered}
    (h : List.Forall₂ ShowsCall calls answers) {p : Phase} (hp : p = .quit ∨ p = .ended)
    (haccounts : Accounts mailFrom mailTo p answers) (htaken : TextTaken texts answers) :
    TextAgreed texts mailFrom mailTo calls := by
  rw [Accounts, if_pos hp] at haccounts
  obtain ⟨a, hfilter, hsender, hrecipients⟩ := haccounts
  obtain ⟨b, text, lines, hfilter', htext, hlisted, hjoin⟩ := htaken
  obtain rfl : a = b := by simpa using hfilter.symm.trans hfilter'
  have hcalls : List.Forall₂ ShowsCall (calls.filter EndOfData) (answers.filter Takes) :=
    List.rel_filter (fun call a hcall => by simpa using endOfData_iff hcall) h
  rw [hfilter] at hcalls
  obtain ⟨call, rest, hcall, hnil, hcalls'⟩ := List.forall₂_cons_right_iff.mp hcalls
  obtain rfl := List.forall₂_nil_right_iff.mp hnil
  obtain ⟨bs, rs, ls, hfits⟩ := hcall.before
  refine ⟨call, text, lines, hcalls', hfits.sender.trans hsender, ?_, ?_, htext, hjoin⟩
  · rw [← hrecipients]
    exact hfits.recipients.foreachText hfits.length_le.2.1
  · rw [← hlisted]
    exact hfits.data.foreachText hfits.length_le.2.2

theorem Settled.step {action : Action} (h : Settled texts mailFrom mailTo e.server)
    (hstep : exchangeStep mailPath e action = some (seen, e')) :
    Settled texts mailFrom mailTo e'.server := by
  rcases exchangeStep_evolves hstep with ⟨-, hserver⟩ | ⟨-, input, hread⟩
  · rwa [hserver]
  · obtain hsame : e.server = e'.server := by simpa [serveRead, h.closed] using hread
    rwa [← hsame]

/-- The texts that the client may take for the mail in this call. -/
def Offers (texts : Bytes → Prop) (mailText : List Bytes) : Action → Prop
  | .clientReads around _ => texts (queuedText mailText around.behind)
  | _ => True

section Steps
variable {p : Phase} {s : Served} {queued : Bytes} {action : Action}

theorem asks_delivers (hfrom : regexMail.rmatch mailFrom = true)
    (hto : regexMail.rmatch mailTo = true) (hshows : Shows e.server s)
    (hmail : Carries mailText mailFrom mailTo e.client) (hwaits : Waits p e.client queued)
    (hhears : Hears mailFrom mailTo p s (e.toServer ++ queued))
    (hkeeps : Keeps texts p s (e.toServer ++ queued)) (hempty : e.toClient = [])
    (hstep : exchangeStep mailPath e action = some (seen, e')) :
    Delivers texts mailText mailFrom mailTo e' ∧ seen.event ≠ some .ok := by
  have hp := hhears.not_ended
  have hqueued : NulFree queued := (nulFree_append.mp (hhears.nulFree hfrom hto)).2
  have hsame : Delivers texts mailText mailFrom mailTo e :=
    .asks hshows hmail hwaits hhears hkeeps hempty
  cases action with
  | clientReads around n =>
    obtain ⟨hidle, -⟩ := @idle_client e mailPath around n (.inr hempty)
    obtain ⟨rfl, rfl⟩ := Prod.mk.inj (Option.some.inj (hidle.symm.trans hstep))
    exact ⟨hsame, by simp⟩
  | clientLosesConnection around =>
    exact (hwaits.fails hp hqueued (.inl rfl) hstep).imp_left .adrift
  | recvFails around => exact (hwaits.fails hp hqueued (.inr (.inl rfl)) hstep).imp_left .adrift
  | sendFails around => exact (hwaits.fails hp hqueued (.inr (.inr rfl)) hstep).imp_left .adrift
  | clientWrites around n =>
    obtain ⟨sent, rest, rfl, hwaits', hmail', hevent, hserver, hto', hclient⟩ :=
      hwaits.write hqueued hmail hstep
    rw [← List.append_assoc, ← hto'] at hhears hkeeps
    exact ⟨.asks (hserver ▸ hshows) hmail' hwaits' hhears hkeeps (hclient.trans hempty),
      by simp [hevent]⟩
  | serverReads n =>
    obtain ⟨input, hinput⟩ : ∃ input, e.toServer.take (min n serverCommandMaxLen) = input := ⟨_, rfl⟩
    by_cases hne : input = []
    · obtain ⟨hidle, -⟩ := idle_server mailPath (hinput.trans hne)
      obtain ⟨rfl, rfl⟩ := Prod.mk.inj (Option.some.inj (hidle.symm.trans hstep))
      exact ⟨hsame, by simp⟩
    obtain ⟨s', server, hread, hshows', hreads⟩ :=
      server_read mailPath hfrom hto hshows hhears hempty hinput hne
    obtain ⟨rfl, rfl⟩ := Prod.mk.inj (Option.some.inj (hreads.symm.trans hstep))
    have hsplit : e.toServer ++ queued = input ++ (e.toServer.drop input.length ++ queued) := by
      have hstart : input <+: e.toServer := hinput ▸ List.take_prefix _ _
      rw [← List.append_assoc, List.prefix_iff_eq_append.mp hstart]
    rw [hsplit] at hhears hkeeps
    obtain ⟨hgoes, hends⟩ := read_keeps hfrom hto hhears hkeeps hread
    obtain ⟨hquiet, hanswered⟩ := read_sent hfrom hto hhears hread
    refine ⟨?_, by simp⟩
    rcases (read_cases hfrom hto hhears hread).2 with hhears' | ⟨hrest, hreplied⟩
    · refine .asks hshows' hmail hwaits hhears' (hgoes hhears') ?_
      dsimp only
      rw [hquiet hhears', List.drop_length]
    · obtain ⟨hdrop, rfl⟩ := List.append_eq_nil_iff.mp hrest
      refine .told hshows' hmail hwaits hp hreplied (hends hrest hreplied) hdrop ?_
      dsimp only
      rw [hanswered hreplied, List.drop_left]

theorem told_delivers (hfrom : regexMail.rmatch mailFrom = true)
    (hto : regexMail.rmatch mailTo = true) (hfree : ∀ line ∈ mailText, NulFree line)
    (hne : mailText.flatten ≠ []) (hsound : SoundAction mailText action)
    (hoffers : Offers texts mailText action) (hshows : Shows e.server s)
    (hmail : Carries mailText mailFrom mailTo e.client) (hwaits : Waits p e.client [])
    (hp : p ≠ .ended) (hreplied : Replied mailFrom mailTo p s) (hkept : Kept texts p s)
    (hserver : e.toServer = []) (hclient : e.toClient = ascii p.reply)
    (hstep : exchangeStep mailPath e action = some (seen, e')) :
    Delivers texts mailText mailFrom mailTo e' ∧
      (seen.event ≠ some .ok ∨ p ≠ .quit ∨ Settled texts mailFrom mailTo e'.server) := by
  have hnil : NulFree [] := nulFree_nil
  have hquiet (hevent : seen.event ≠ some .ok) :
      seen.event ≠ some .ok ∨ p ≠ .quit ∨ Settled texts mailFrom mailTo e'.server := .inl hevent
  have hsame : Delivers texts mailText mailFrom mailTo e :=
    .told hshows hmail hwaits hp hreplied hkept hserver hclient
  cases action with
  | clientReads around n =>
    by_cases hn : n = 0
    · obtain ⟨hidle, -⟩ := @idle_client e mailPath around n (.inl hn)
      obtain ⟨rfl, rfl⟩ := Prod.mk.inj (Option.some.inj (hidle.symm.trans hstep))
      exact ⟨hsame, hquiet (by simp)⟩
    rcases client_read mailPath hfrom hto hfree hne hsound hmail hwaits hp hclient
      (Nat.pos_of_ne_zero hn) with ⟨-, hcrash⟩ | ⟨-, event, client, hreads, hnext, hmail', hrequest⟩
    · rw [hcrash] at hstep
      cases hstep
    · obtain ⟨rfl, rfl⟩ := Prod.mk.inj (Option.some.inj (hreads.symm.trans hstep))
      by_cases hquit : p = .quit
      · subst hquit
        have hsettled : Settled texts mailFrom mailTo e.server :=
          ⟨hshows.closed.trans hreplied.closed, textAgreed_of_shows hshows.calls (.inr rfl)
            hreplied.accounts (hkept.after (.inr rfl))⟩
        exact ⟨.settled hsettled, .inr (.inr hsettled)⟩
      · refine ⟨.asks hshows hmail' hnext ⟨?_, hreplied.stage, hreplied.accounts, ?_⟩ ?_ rfl,
          .inr (.inl hquit)⟩
        · simpa [hquit] using hreplied.closed
        · exact ⟨_, [], hrequest hquit, by simp [hreplied.held, hserver], .inl rfl⟩
        · rw [hserver, List.nil_append]
          exact hkept.next hquit hreplied.held fun hdata =>
            ⟨queuedText mailText around.behind, hoffers, by rw [asked, if_pos hdata]⟩
  | clientLosesConnection around =>
    exact (hwaits.fails hp hnil (.inl rfl) hstep).imp .adrift hquiet
  | recvFails around => exact (hwaits.fails hp hnil (.inr (.inl rfl)) hstep).imp .adrift hquiet
  | sendFails around => exact (hwaits.fails hp hnil (.inr (.inr rfl)) hstep).imp .adrift hquiet
  | clientWrites around n =>
    obtain ⟨sent, rest, hsplit, hwaits', hmail', hevent, hsame', hto', hclient'⟩ :=
      hwaits.write hnil hmail hstep
    obtain ⟨rfl, rfl⟩ := List.append_eq_nil_iff.mp hsplit.symm
    refine ⟨.told (hsame' ▸ hshows) hmail' hwaits' hp hreplied hkept ?_ (hclient'.trans hclient),
      hquiet (by simp [hevent])⟩
    rw [hto', hserver, List.append_nil]
  | serverReads n =>
    have hnothing : e.toServer.take (min n serverCommandMaxLen) = [] := by
      rw [hserver, List.take_nil]
    obtain ⟨hidle, -⟩ := idle_server mailPath hnothing
    obtain ⟨rfl, rfl⟩ := Prod.mk.inj (Option.some.inj (hidle.symm.trans hstep))
    exact ⟨hsame, hquiet (by simp)⟩

theorem Delivers.step (hfrom : regexMail.rmatch mailFrom = true)
    (hto : regexMail.rmatch mailTo = true) (hfree : ∀ line ∈ mailText, NulFree line)
    (hne : mailText.flatten ≠ []) (hsound : SoundAction mailText action)
    (hoffers : Offers texts mailText action) (h : Delivers texts mailText mailFrom mailTo e)
    (hstep : exchangeStep mailPath e action = some (seen, e')) :
    Delivers texts mailText mailFrom mailTo e' ∧
      (e.client.state = .sQuit → seen.event = some .ok →
        Settled texts mailFrom mailTo e'.server) := by
  cases h with
  | asks hshows hmail hwaits hhears hkeeps hempty =>
    obtain ⟨hnext, hevent⟩ := asks_delivers hfrom hto hshows hmail hwaits hhears hkeeps hempty hstep
    exact ⟨hnext, fun _ hok => absurd hok hevent⟩
  | told hshows hmail hwaits hp hreplied hkept hserver hclient =>
    obtain ⟨hnext, hsettled⟩ := told_delivers hfrom hto hfree hne hsound hoffers hshows hmail hwaits
      hp hreplied hkept hserver hclient hstep
    refine ⟨hnext, fun hstate hok => ?_⟩
    exact (hsettled.resolve_left (not_not.mpr hok)).resolve_left (not_not.mpr (hwaits.quit hstate))
  | settled hsettled => exact ⟨.settled (hsettled.step hstep), fun _ _ => hsettled.step hstep⟩
  | adrift hadrift =>
    refine ⟨.adrift (adrift_step hadrift hstep), fun hquit _ => ?_⟩
    rw [hquit] at hadrift
    simp [Adrift] at hadrift

theorem Delivers.quit_agreed (h : Delivers texts mailText mailFrom mailTo e)
    (hstate : e.client.state = .sQuit) : TextAgreed texts mailFrom mailTo e.server.calls := by
  cases h with
  | asks hshows _ hwaits hhears hkeeps =>
    obtain rfl := hwaits.quit hstate
    exact textAgreed_of_shows hshows.calls (.inl rfl) hhears.accounts (hkeeps.after rfl)
  | told hshows _ hwaits _ hreplied hkept =>
    obtain rfl := hwaits.quit hstate
    exact textAgreed_of_shows hshows.calls (.inr rfl) hreplied.accounts (hkept.after (.inr rfl))
  | settled hsettled => exact hsettled.agreed
  | adrift hadrift =>
    rw [hstate] at hadrift
    simp [Adrift] at hadrift

end Steps

theorem Carried.step {history : List (Step Parties Action Seen)} {action : Action}
    (hfrom : regexMail.rmatch mailFrom = true) (hto : regexMail.rmatch mailTo = true)
    (hfree : ∀ line ∈ mailText, NulFree line) (hne : mailText.flatten ≠ [])
    (hsound : SoundAction mailText action) (hoffers : Offers texts mailText action)
    (h : Carried texts mailText mailFrom mailTo history e)
    (hstep : exchangeStep mailPath e action = some (seen, e')) :
    Carried texts mailText mailFrom mailTo (history ++ [⟨e, action, seen, e'⟩]) e' := by
  obtain ⟨hdelivers, hsettled⟩ := h.delivers.step hfrom hto hfree hne hsound hoffers hstep
  refine ⟨hdelivers, fun ⟨st, hmem, hstate, hok⟩ => ?_⟩
  rcases List.mem_append.mp hmem with hmem | hmem
  · exact (h.told ⟨st, hmem, hstate, hok⟩).step hstep
  · obtain rfl := List.mem_singleton.mp hmem
    exact hsettled hstate hok

theorem delivers_accepted {w : World} {server : Connection} (hoom : ∀ a, w.mem.oom a = false)
    (haccept : acceptConnection w = some server) (sendBuf receiveBuf : Option Bytes) :
    Delivers texts mailText mailFrom mailTo
      (accepted (initConnection mailText mailFrom mailTo sendBuf receiveBuf) server) := by
  obtain ⟨server', hserver, hshows⟩ := acceptConnection_shows hoom
  obtain rfl := Option.some.inj (haccept.symm.trans hserver)
  have hreplied : Replied mailFrom mailTo .greeting greeted :=
    ⟨rfl, rfl, rfl, by simp [Accounts, Phase.next, greeted]⟩
  exact .told hshows ⟨rfl, rfl, rfl⟩ ⟨rfl, rfl, rfl⟩ (by decide) hreplied
    ⟨fun _ _ => rfl, by simp⟩ rfl hshows.sent

theorem exchange_carried {w : World} {server : Connection} {sendBuf receiveBuf : Option Bytes}
    {actions : List Action} {history : List (Step Parties Action Seen)} {last : Parties}
    (hfrom : regexMail.rmatch mailFrom = true) (hto : regexMail.rmatch mailTo = true)
    (hfree : ∀ line ∈ mailText, NulFree line) (hne : mailText.flatten ≠ [])
    (hoom : ∀ a, w.mem.oom a = false) (haccept : acceptConnection w = some server)
    (hsound : ∀ action ∈ actions, SoundAction mailText action)
    (hoffers : ∀ action ∈ actions, Offers texts mailText action)
    (hexec : (exchangeMachine mailPath).exec
      (accepted (initConnection mailText mailFrom mailTo sendBuf receiveBuf) server) actions =
        some (history, last)) :
    Carried texts mailText mailFrom mailTo history last := by
  let Inv (history : List (Step Parties Action Seen)) (e : Parties) : Prop :=
    (∀ st ∈ history, st.input ∈ actions) → Carried texts mailText mailFrom mailTo history e
  have hinit : Inv [] (accepted (initConnection mailText mailFrom mailTo sendBuf receiveBuf) server) :=
    fun _ => ⟨delivers_accepted hoom haccept sendBuf receiveBuf, by simp⟩
  have hstep : ∀ history e action seen e', Inv history e →
      (exchangeMachine mailPath).step e action = some (seen, e') →
        Inv (history ++ [⟨e, action, seen, e'⟩]) e' := by
    intro history e action seen e' hinv hstep hall
    have hmem : action ∈ actions := hall ⟨e, action, seen, e'⟩ (by simp)
    exact (hinv fun st hst => hall st (by simp [hst])).step hfrom hto hfree hne (hsound _ hmem)
      (hoffers _ hmem) hstep
  obtain ⟨hlast, -⟩ := Machine.exec_steps hstep hinit hexec
  exact hlast fun st hmem => (Machine.exec_inputs hexec).1.subset (List.mem_map_of_mem hmem)

theorem Carried.agreed {history : List (Step Parties Action Seen)}
    (h : Carried texts mailText mailFrom mailTo history e) (hbelieves : Believes history e) :
    TextAgreed texts mailFrom mailTo e.server.calls := by
  rcases hbelieves with hquit | ⟨-, htold⟩
  · exact h.delivers.quit_agreed hquit
  · exact (h.told htold).agreed

/-- What the client may have taken for the text of its mail in one of the calls. -/
def TakenText (mailText : List Bytes) (actions : List Action) (text : Bytes) : Prop :=
  ∃ around n, Action.clientReads around n ∈ actions ∧ text = queuedText mailText around.behind

/-- While memory does not run out and no dot line is read from behind the text, the client
believes that its message was taken only if the server has taken the text of the mail, byte
for byte, but with the lines after the first in reverse order. -/
theorem text_agreement {w : World} {server : Connection} {sendBuf receiveBuf : Option Bytes}
    {actions : List Action} {history : List (Step Parties Action Seen)} {last : Parties}
    (hfrom : regexMail.rmatch mailFrom = true) (hto : regexMail.rmatch mailTo = true)
    (hfree : ∀ line ∈ mailText, NulFree line) (hne : mailText.flatten ≠ [])
    (hoom : ∀ a, w.mem.oom a = false) (haccept : acceptConnection w = some server)
    (hsound : ∀ action ∈ actions, SoundAction mailText action)
    (hexec : (exchangeMachine mailPath).exec
      (accepted (initConnection mailText mailFrom mailTo sendBuf receiveBuf) server) actions =
        some (history, last)) (hbelieves : Believes history last) :
    TextAgreed (TakenText mailText actions) mailFrom mailTo last.server.calls := by
  have hoffers : ∀ action ∈ actions, Offers (TakenText mailText actions) mailText action := by
    intro action hmem
    cases action with
    | clientReads around n => exact ⟨around, n, hmem, rfl⟩
    | _ => trivial
  exact (exchange_carried hfrom hto hfree hne hoom haccept hsound hoffers hexec).agreed hbelieves

theorem text_agreement_newConn : ∃ server history last, acceptConnection idle = some server ∧
    (exchangeMachine (ascii "./mail")).exec (accepted newConn server)
      (talk (List.replicate 6 [7, 100])) = some (history, last) ∧ Believes history last ∧
    TextAgreed (TakenText newConn.mailText (talk (List.replicate 6 [7, 100]))) (ascii "a@b")
      (ascii "c@d") last.server.calls := by
  have hrun : ((acceptConnection idle).bind fun server =>
      ((exchangeMachine (ascii "./mail")).exec (accepted newConn server)
        (talk (List.replicate 6 [7, 100]))).map fun r =>
          (r.2.client.state, r.1.any fun st =>
            st.before.client.state = .sQuit ∧ st.output.event = some .ok)) =
      some (.finish, true) := by
    decide +kernel
  obtain ⟨server, haccept, hrun⟩ := Option.bind_eq_some_iff.mp hrun
  obtain ⟨⟨history, last⟩, hexec, hlast⟩ := Option.map_eq_some_iff.mp hrun
  obtain ⟨hstate, htold⟩ := Prod.mk.inj hlast
  have hbelieves : Believes history last := .inr ⟨hstate, by simpa using htold⟩
  exact ⟨server, history, last, haccept, hexec, hbelieves,
    text_agreement (by decide) (by decide) (by decide) (by decide) (fun _ => rfl) haccept
      (talk_sound _) hexec hbelieves⟩

end Run

end SmtpMta.Exchange.TextAgreement
