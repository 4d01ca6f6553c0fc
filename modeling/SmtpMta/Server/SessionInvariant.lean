import SmtpMta.Server.Protocol
import SmtpMta.Server.ReadLoop
import SmtpMta.Library.Trace

/-! Runs of one session. The transcript is what the commands and their answers
say about the message under way; after every call the session agrees with it. -/
namespace SmtpMta.Server.SessionInvariant
open Library.CString Library.Trace Common.ListHead Common.StringUtils Smtp ReadLoop Lines Protocol

/-- A session takes commands up to the first negative return. -/
def sessionMachine (len : Nat) (mailPath : Bytes) : Machine World Bytes (Int × Bytes) where
  step w command :=
    (smtpProcessCommand command len mailPath w).map fun (ret, w) => ((ret, w.reply), w)
  stop output := output.1 < 0

structure Transcript where
  inData : Bool
  sender : Option Bytes
  recipients : List Bytes
  /-- The lines since the 354 answer, but for those with a failed allocation. -/
  lines : List Bytes

def Transcript.start : Transcript := ⟨false, none, [], []⟩

def answered (code : String) (reply : Bytes) : Bool :=
  (ascii code).isPrefixOf reply

def Transcript.note (t : Transcript) (stored : Bool) (command reply : Bytes) : Transcript :=
  if t.inData then
    if cstr command = ascii "." then { t with inData := false }
    else if stored then { t with lines := t.lines ++ [cstr command] }
    else t
  else
    let command := strtrim command
    match verbOf command with
    | .mail =>
        if answered "250" reply then
          { t with sender := address mailPattern command, recipients := [] }
        else t
    | .rcpt =>
        if answered "250" reply then
          { t with recipients := t.recipients ++ (address rcptPattern command).toList }
        else t
    | .data => if answered "354" reply then { t with inData := true, lines := [] } else t
    | _ => t

def transcriptOf (history : List (Step World Bytes (Int × Bytes))) : Transcript :=
  history.foldl (fun t st => t.note (!st.before.mem.oom st.before.mem.brk) st.input st.output.2)
    .start

def UnderWay (state : SmtpState) : Prop := state = .mailRcpt ∨ state = .mailData

/-- The dialogue agrees with the transcript. -/
structure Tracks (t : Transcript) (d : Dialogue) : Prop where
  held : d.held = []
  inData : t.inData = true ↔ d.state = .mailData
  empty : ¬UnderWay d.state → d = fresh d.state
  sender : UnderWay d.state → d.sender = t.sender ∧ t.sender.isSome
  recipients : UnderWay d.state → d.recipients.Perm t.recipients
  noLines : d.state = .mailRcpt → d.lines = []
  lines : d.state = .mailData → d.lines.Perm t.lines

theorem tracks_fresh {t : Transcript} (ht : t.inData = false) {state : SmtpState}
    (hstate : ¬UnderWay state) : Tracks t (fresh state) := by
  obtain ⟨hrcpt, hdata⟩ := not_or.mp hstate
  constructor
  case held => rfl
  case inData => simpa [fresh, ht] using hdata
  case empty => exact fun _ => rfl
  case sender => exact fun h => absurd h hstate
  case recipients => exact fun h => absurd h hstate
  case noLines => exact fun h => absurd h hrcpt
  case lines => exact fun h => absurd h hdata

theorem answered_replied {len : Nat} (hlen : 3 < len) (old : Bytes) (code text : String)
    (hcode : (ascii code).length ≤ 3) :
    answered code (replied len (some text) old) = true ↔ ascii code <+: ascii text := by
  have hroom : (ascii code).length ≤ len - 1 := by omega
  simp [answered, replied, List.prefix_take_iff, hroom]

section Step
variable {t : Transcript} {d d' : Dialogue} {alloc : Bool} {command : Bytes} {ret : Int}
  {reply : Option String} {len : Nat}

theorem append_singleton_perm {α : Type} {xs ys : List α} (h : xs.Perm ys) (x : α) :
    (insertSecond x xs).Perm (ys ++ [x]) :=
  calc (insertSecond x xs).Perm (x :: xs) := insertSecond_perm x xs
    _ |>.Perm (x :: ys) := h.cons x
    _ |>.Perm (ys ++ [x]) := (List.perm_append_singleton x ys).symm

theorem note_of_other (hin : t.inData = false)
    (hother : verbOf (strtrim command) ∉ [.mail, .rcpt, .data])
    (stored : Bool) (reply : Bytes) : t.note stored command reply = t := by
  simp only [List.mem_cons, List.not_mem_nil, or_false, not_or] at hother
  obtain ⟨hmail, hrcpt, hdata⟩ := hother
  simp only [Transcript.note, hin, Bool.false_eq_true, if_false]

theorem note_of_refused (hin : t.inData = false) {reply : Bytes}
    (h250 : answered "250" reply = false)
    (h354 : answered "354" reply = false) (stored : Bool) : t.note stored command reply = t := by
  simp only [Transcript.note, hin, Bool.false_eq_true, if_false, h250, h354]
  cases verbOf (strtrim command) <;> rfl

theorem Tracks.answer (h : Tracks t d) (hanswer : answer alloc command d = some (ret, reply, d'))
    (hlen : 3 < len) (old : Bytes) :
    Tracks (t.note alloc command (replied len reply old)) d' := by
  have hout (hstate : d.state ≠ .mailData) : t.inData = false := by simpa [hstate] using h.inData
  cases answer_outcome h.held hanswer with
  | ended hstate hdot =>
    have hin : t.inData = true := h.inData.mpr hstate
    exact tracks_fresh (by simp [Transcript.note, hin, hdot]) (by simp [UnderWay])
  | stored hstate hdot halloc =>
    have hin : t.inData = true := h.inData.mpr hstate
    simp only [Transcript.note, hin, hdot, halloc, if_true, if_false]
    constructor
    case held => exact h.held
    case inData => simpa using hstate
    case empty => exact fun hno => absurd (.inr hstate) hno
    case sender => exact h.sender
    case recipients => exact h.recipients
    case noLines => exact fun hrcpt => by simp [hstate] at hrcpt
    case lines => exact fun _ => append_singleton_perm (h.lines hstate) _
  | dropped hstate hdot halloc =>
    have hin : t.inData = true := h.inData.mpr hstate
    simpa [Transcript.note, hin, hdot, halloc] using h
  | reset hstate hverb hother hnext _ =>
    subst hverb
    rw [note_of_other (hout hstate) hother]
    exact tracks_fresh (hout hstate) (by rcases List.mem_pair.mp hnext with rfl | rfl <;> simp [UnderWay])
  | sender hstate hverb haddress =>
    have hin : t.inData = false := hout (by simp [hstate])
    have h250 := (answered_replied hlen old "250" "250 OK\r\n" (by decide)).mpr (by decide)
    simp only [Transcript.note, hin, hverb, haddress, h250, Bool.false_eq_true, if_false, if_true]
    rw [h.empty (by simp [hstate, UnderWay])]
    constructor
    case held => rfl
    case inData => simp
    case empty => exact fun hno => absurd (.inl rfl) hno
    case sender => exact fun _ => ⟨rfl, rfl⟩
    case recipients => exact fun _ => .refl []
    case noLines => exact fun _ => rfl
    case lines => exact fun hdata => by simp at hdata
  | recipient hstate hverb haddress =>
    have hin : t.inData = false := hout (by simp [hstate])
    have h250 := (answered_replied hlen old "250" "250\r\n" (by decide)).mpr (by decide)
    simp only [Transcript.note, hin, hverb, haddress, h250, Bool.false_eq_true, if_false, if_true]
    constructor
    case held => exact h.held
    case inData => simpa [hin] using h.inData
    case empty => exact fun hno => absurd (.inl hstate) hno
    case sender => exact h.sender
    case recipients => exact fun hway => append_singleton_perm (h.recipients hway) _
    case noLines => exact h.noLines
    case lines => exact h.lines
  | started hstate hdata =>
    have hin : t.inData = false := hout (by simp [hstate])
    have h354 := (answered_replied hlen old "354" "354\r\n" (by decide)).mpr (by decide)
    simp only [Transcript.note, hin, hdata.1, h354, Bool.false_eq_true, if_false, if_true]
    constructor
    case held => exact h.held
    case inData => simp
    case empty => exact fun hno => absurd (.inr rfl) hno
    case sender => exact fun _ => h.sender (.inl hstate)
    case recipients => exact fun _ => h.recipients (.inl hstate)
    case noLines => exact fun hrcpt => by simp at hrcpt
    case lines =>
      intro _
      simpa using h.noLines hstate
  | @refused _ text hstate _ h250 h354 =>
    have hno250 := (answered_replied hlen old "250" text (by decide)).not.mpr h250
    have hno354 := (answered_replied hlen old "354" text (by decide)).not.mpr h354
    rwa [note_of_refused (hout hstate) (by simpa using hno250) (by simpa using hno354)]

end Step

/-- The session agrees with the transcript of its commands and answers. -/
structure Accounted (t : Transcript) (w : World) : Prop where
  buffer : w.session.buffer = none ∧ w.session.bufferSize = 0
  empty : ¬UnderWay w.session.state → w.session.envelope = ⟨none, none, none⟩
  sender : UnderWay w.session.state → ∃ sender, t.sender = some sender ∧
    w.session.envelope.mailFrom = some sender
  recipients : UnderWay w.session.state → ∃ texts,
    foreachText w.mem w.session.envelope.recipients = some texts ∧ texts.Perm t.recipients
  noData : w.session.state = .mailRcpt → w.session.envelope.data = none
  data : w.session.state = .mailData → ∃ texts,
    foreachText w.mem w.session.envelope.data = some texts ∧ texts.Perm t.lines

theorem Tracks.accounted {t : Transcript} {w : World} {d : Dialogue} (h : Tracks t d)
    (hrep : Represents w d) : Accounted t w := by
  obtain ⟨bs, rs, ls, hfits⟩ := hrep
  have hrecipients := hfits.recipients.foreachText hfits.length_le.2.1
  have hdata := hfits.data.foreachText hfits.length_le.2.2
  constructor
  case buffer =>
    exact ⟨hfits.buffer.lines_eq_none_iff.mpr h.held, by simp [hfits.size, h.held]⟩
  case empty =>
    intro hno
    rw [hfits.state] at hno
    have hfresh := h.empty hno
    have hr := hfits.recipients.lines_eq_none_iff.mpr (congrArg Dialogue.recipients hfresh)
    have hl := hfits.data.lines_eq_none_iff.mpr (congrArg Dialogue.lines hfresh)
    have hs := hfits.sender.trans (congrArg Dialogue.sender hfresh)
    exact congr (congr (congrArg Envelope.mk hr) hl) hs
  case sender =>
    intro hway
    rw [hfits.state] at hway
    obtain ⟨hsender, hsome⟩ := h.sender hway
    obtain ⟨sender, hsome⟩ := Option.isSome_iff_exists.mp hsome
    exact ⟨sender, hsome, (hfits.sender.trans hsender).trans hsome⟩
  case recipients =>
    intro hway
    exact ⟨_, hrecipients, h.recipients (hfits.state ▸ hway)⟩
  case noData =>
    intro hstate
    exact hfits.data.lines_eq_none_iff.mpr (h.noLines (hfits.state ▸ hstate))
  case data =>
    intro hstate
    exact ⟨_, hdata, h.lines (hfits.state ▸ hstate)⟩

section Run
variable {len : Nat} {mailPath : Bytes}

/-- What a run of the session keeps: it holds a dialogue that agrees with the
transcript, and the allocations still fail where they did. -/
structure Invariant (oom : Addr → Bool) (history : List (Step World Bytes (Int × Bytes)))
    (w : World) : Prop where
  oom : w.mem.oom = oom
  tracks : ∃ d, Represents w d ∧ Tracks (transcriptOf history) d

theorem transcriptOf_append (history : List (Step World Bytes (Int × Bytes)))
    (st : Step World Bytes (Int × Bytes)) :
    transcriptOf (history ++ [st]) = (transcriptOf history).note
      (!st.before.mem.oom st.before.mem.brk) st.input st.output.2 := by
  simp [transcriptOf]

theorem invariant_start (len : Nat) {w : World} (h : w.session = newSession) :
    ∃ w', smtpStartSession len w = some (0, w') ∧ Invariant w.mem.oom [] w' ∧
      w'.session.state = .initial := by
  have hfits : Represents w (fresh .initial) := ⟨[], [], [], fits_fresh h⟩
  obtain ⟨w', hstart, hrep, hkept, -⟩ := hfits.startSession len
  exact ⟨w', hstart, ⟨hkept.oom, fresh .initial, hrep, tracks_fresh rfl (by simp [UnderWay])⟩,
    hrep.state_eq⟩

theorem Invariant.answer {oom : Addr → Bool} {history : List (Step World Bytes (Int × Bytes))}
    {w w' : World} {command : Bytes} {output : Int × Bytes} (h : Invariant oom history w)
    (hstep : (sessionMachine len mailPath).step w command = some (output, w')) :
    ∃ d d' reply, Represents w d ∧ Tracks (transcriptOf history) d ∧ Represents w' d' ∧
      Kept w w' ∧ output.2 = replied len reply w.reply ∧
      answer (!w.mem.oom w.mem.brk) command d = some (output.1, reply, d') := by
  obtain ⟨⟨ret, w''⟩, hcall, heq⟩ := Option.map_eq_some_iff.mp hstep
  obtain ⟨rfl, rfl⟩ : (ret, w''.reply) = output ∧ w'' = w' := by simpa using heq
  obtain ⟨d, hrep, htracks⟩ := h.tracks
  have hfollows := hrep.processCommand command len mailPath
  cases hanswer : Protocol.answer (!w.mem.oom w.mem.brk) command d with
  | none => simp [Follows, hanswer, hcall] at hfollows
  | some result =>
    obtain ⟨ret', reply, d'⟩ := result
    rw [hanswer, hcall] at hfollows
    obtain ⟨w₁, heq, hrep', hkept, hreply⟩ := hfollows
    obtain ⟨rfl, rfl⟩ : ret = ret' ∧ w'' = w₁ := by simpa using heq
    exact ⟨d, d', reply, hrep, htracks, hrep', hkept, hreply, hanswer⟩

theorem Invariant.step (hlen : 3 < len) {oom : Addr → Bool}
    {history : List (Step World Bytes (Int × Bytes))} {w w' : World} {command : Bytes}
    {output : Int × Bytes} (h : Invariant oom history w)
    (hstep : (sessionMachine len mailPath).step w command = some (output, w')) :
    Invariant oom (history ++ [⟨w, command, output, w'⟩]) w' := by
  obtain ⟨d, d', reply, -, htracks, hrep', hkept, hreply, hanswer⟩ := h.answer hstep
  refine ⟨hkept.oom.trans h.oom, d', hrep', ?_⟩
  rw [transcriptOf_append, hreply]
  exact htracks.answer hanswer hlen w.reply

theorem Invariant.step_succeeds (hlen : 3 < len) (mailPath : Bytes) {oom : Addr → Bool}
    (hoom : ∀ a, oom a = false)
    {history : List (Step World Bytes (Int × Bytes))} {w : World} (command : Bytes)
    (h : Invariant oom history w) :
    ∃ output w', (sessionMachine len mailPath).step w command = some (output, w') ∧
      Invariant oom (history ++ [⟨w, command, output, w'⟩]) w' := by
  obtain ⟨d, hrep, -⟩ := h.tracks
  have halloc : (!w.mem.oom w.mem.brk) = true := by simp [h.oom, hoom]
  have hfollows := hrep.processCommand command len mailPath
  rw [halloc] at hfollows
  obtain ⟨ret, reply, d', hanswer⟩ := answer_succeeds command d
  rw [hanswer] at hfollows
  obtain ⟨w', hcall, -⟩ := hfollows
  have hstep : (sessionMachine len mailPath).step w command = some ((ret, w'.reply), w') := by
    simp [sessionMachine, hcall]
  exact ⟨_, w', hstep, h.step hlen hstep⟩

/-- After every call of a run the session agrees with the transcript so far. -/
theorem session_accounted (hlen : 3 < len) (mailPath : Bytes) {w : World}
    (hsession : w.session = newSession) (hoom : ∀ a, w.mem.oom a = false) (commands : List Bytes) :
    ∃ w₁ history last, smtpStartSession len w = some (0, w₁) ∧
      (sessionMachine len mailPath).exec w₁ commands = some (history, last) ∧
      ∀ done st rest, history = done ++ st :: rest →
        Accounted (transcriptOf (done ++ [st])) st.after := by
  obtain ⟨w₁, hstart, hinv, -⟩ := invariant_start len hsession
  obtain ⟨history, last, hexec, -, hsteps⟩ := Machine.exec_invariant
    (fun _ _ command h _ => h.step_succeeds hlen mailPath hoom command) hinv
    (Machine.throughout_of_forall (fun _ _ => trivial) w₁ commands)
  refine ⟨w₁, history, last, hstart, hexec, fun done st rest hsplit => ?_⟩
  obtain ⟨-, d, hrep, htracks⟩ := hsteps done st rest hsplit
  exact htracks.accounted hrep

/-- An idle server without files, and memory without end. -/
def idle : World :=
  ⟨⟨fun _ => none, fun _ => none, 0, fun _ => false⟩, newSession, [], fun _ _ => []⟩

theorem session_accounted_idle : ∃ w₁ history last,
    smtpStartSession serverReplyMaxLen idle = some (0, w₁) ∧
      (sessionMachine serverReplyMaxLen (ascii "./mail")).exec w₁
        [ascii "EHLO x", ascii "MAIL FROM:<a@b>", ascii "RCPT TO:<c@d>", ascii "DATA", ascii "hi",
          ascii "."] = some (history, last) ∧
      ∀ done st rest, history = done ++ st :: rest →
        Accounted (transcriptOf (done ++ [st])) st.after :=
  session_accounted (by decide) (ascii "./mail") rfl (fun _ => rfl) _

end Run

section Recipients
variable {len : Nat} {mailPath : Bytes} {oom : Addr → Bool}
  {history : List (Step World Bytes (Int × Bytes))} {w w' : World} {command : Bytes}
  {output : Int × Bytes}

/-- DATA after a MAIL for which no recipient has been accepted. -/
def DataForNobody (w : World) (command : Bytes) : Prop :=
  w.session.state = .mailRcpt ∧ w.session.envelope.recipients = none ∧ IsData command

/-- Outside of the data phase only DATA, given after MAIL, starts a message,
and it is the only command answered 354. -/
theorem starts_data {alloc : Bool} {d d' : Dialogue} {ret : Int} {reply : Option String}
    (h : Outcome alloc command d ret reply d') (hstate : d.state ≠ .mailData) (hlen : 3 < len)
    (old : Bytes) :
    (answered "354" (replied len reply old) = true ↔ d.state = .mailRcpt ∧ IsData command) ∧
      (d'.state = .mailData ↔ d.state = .mailRcpt ∧ IsData command) := by
  have h354 (text : String) := answered_replied hlen old "354" text (by decide)
  cases h with
  | ended hdata => exact absurd hdata hstate
  | stored hdata => exact absurd hdata hstate
  | dropped hdata => exact absurd hdata hstate
  | reset _ hverb hother hnext hno354 =>
    have hno : ¬IsData command := fun ⟨hdata, _⟩ => by simp [← hverb, hdata] at hother
    rw [h354]
    exact ⟨by simp [hno, hno354], by rcases List.mem_pair.mp hnext with rfl | rfl <;> simp [fresh, hno]⟩
  | sender hestablished =>
    rw [h354]
    have hno354 : ¬ascii "354" <+: ascii "250 OK\r\n" := by decide
    simp [hestablished, hno354]
  | recipient hrcpt hverb =>
    have hno : ¬IsData command := fun ⟨hdata, _⟩ => by simp [hverb] at hdata
    rw [h354]
    have hno354 : ¬ascii "354" <+: ascii "250\r\n" := by decide
    simp [hrcpt, hno, hno354]
  | started hrcpt hdata =>
    rw [h354]
    have hyes : ascii "354" <+: ascii "354\r\n" := by decide
    simp [hrcpt, hdata, hyes]
  | refused _ hno _ hno354 =>
    rw [h354]
    simp [hno, hno354, hstate]

theorem Invariant.keeps_recipients (h : Invariant oom history w)
    (hstep : (sessionMachine len mailPath).step w command = some (output, w'))
    (hstate' : w'.session.state = .mailData) :
    w'.session.envelope.recipients = none ↔ w.session.envelope.recipients = none := by
  obtain ⟨ret, text⟩ := output
  obtain ⟨d, d', reply, hrep, htracks, hrep', -, -, hanswer⟩ := h.answer hstep
  rw [hrep.recipients_eq_none_iff, hrep'.recipients_eq_none_iff]
  rw [hrep'.state_eq] at hstate'
  cases answer_outcome htracks.held hanswer with
  | ended => simp [fresh] at hstate'
  | stored => rfl
  | dropped => rfl
  | reset _ _ _ hnext _ =>
    simp only [fresh] at hstate'
    simp [hstate'] at hnext
  | sender => simp at hstate'
  | recipient hstate => simp [hstate] at hstate'
  | started => rfl
  | refused => rfl

theorem Invariant.recipients_eq_nil_iff (h : Invariant oom history w)
    (hstate : w.session.state = .mailRcpt) :
    (transcriptOf history).recipients = [] ↔ w.session.envelope.recipients = none := by
  obtain ⟨d, hrep, htracks⟩ := h.tracks
  rw [hrep.recipients_eq_none_iff]
  have hperm := htracks.recipients (.inl (hrep.state_eq ▸ hstate))
  exact ⟨fun hnil => (hnil ▸ hperm).eq_nil, fun hnil => (hnil ▸ hperm).symm.eq_nil⟩

theorem Invariant.starts_data (hlen : 3 < len) (h : Invariant oom history w)
    (hstep : (sessionMachine len mailPath).step w command = some (output, w'))
    (hstate : w.session.state ≠ .mailData) :
    (answered "354" output.2 = true ↔ w.session.state = .mailRcpt ∧ IsData command) ∧
      (w'.session.state = .mailData ↔ w.session.state = .mailRcpt ∧ IsData command) := by
  obtain ⟨d, d', reply, hrep, htracks, hrep', -, hreply, hanswer⟩ := h.answer hstep
  rw [hrep.state_eq] at hstate
  rw [hrep.state_eq, hrep'.state_eq, hreply]
  exact SessionInvariant.starts_data (answer_outcome htracks.held hanswer) hstate hlen w.reply

theorem Invariant.accepts_nobody (hlen : 3 < len) (h : Invariant oom history w)
    (hstep : (sessionMachine len mailPath).step w command = some (output, w'))
    (hnobody : DataForNobody w command) :
    answered "354" output.2 = true ∧ (transcriptOf history).recipients = [] ∧
      w'.session.state = .mailData ∧ w'.session.envelope.recipients = none := by
  obtain ⟨hstate, hnone, hdata⟩ := hnobody
  obtain ⟨h354, hnext⟩ := h.starts_data hlen hstep (by simp [hstate])
  have hstate' := hnext.mpr ⟨hstate, hdata⟩
  exact ⟨h354.mpr ⟨hstate, hdata⟩, (h.recipients_eq_nil_iff hstate).mpr hnone, hstate',
    (h.keeps_recipients hstep hstate').mpr hnone⟩

/-- As long as DATA is not given for nobody, a message under way has a recipient. -/
def ForSomebody (history : List (Step World Bytes (Int × Bytes))) (w : World) : Prop :=
  (∀ st ∈ history, ¬DataForNobody st.before st.input) → w.session.state = .mailData →
    w.session.envelope.recipients ≠ none

theorem Invariant.forSomebody (hlen : 3 < len) (h : Invariant oom history w)
    (hsomebody : ForSomebody history w)
    (hstep : (sessionMachine len mailPath).step w command = some (output, w')) :
    ForSomebody (history ++ [⟨w, command, output, w'⟩]) w' := by
  intro hall hstate'
  rw [Ne, h.keeps_recipients hstep hstate']
  intro hnone
  by_cases hstate : w.session.state = .mailData
  · exact hsomebody (fun st hmem => hall st (by simp [hmem])) hstate hnone
  · obtain ⟨hrcpt, hdata⟩ := (h.starts_data hlen hstep hstate).2.mp hstate'
    exact hall ⟨w, command, output, w'⟩ (by simp) ⟨hrcpt, hnone, hdata⟩

/-- A message is started for somebody exactly in the runs in which no DATA
comes after a MAIL without an accepted RCPT. -/
theorem data_needs_recipient (hlen : 3 < len) (mailPath : Bytes) {w w₁ last : World}
    (hsession : w.session = newSession) (hstart : smtpStartSession len w = some (0, w₁))
    {commands : List Bytes} {history : List (Step World Bytes (Int × Bytes))}
    (hexec : (sessionMachine len mailPath).exec w₁ commands = some (history, last)) :
    ((∀ done st rest, history = done ++ st :: rest → st.before.session.state ≠ .mailData →
        answered "354" st.output.2 = true → (transcriptOf done).recipients ≠ []) ↔
      (sessionMachine len mailPath).Throughout (fun w command => ¬DataForNobody w command) w₁
        commands) ∧
    ((∀ st ∈ history, st.after.session.state = .mailData →
        st.after.session.envelope.recipients ≠ none) ↔
      (sessionMachine len mailPath).Throughout (fun w command => ¬DataForNobody w command) w₁
        commands) := by
  obtain ⟨w₁', hstart', hinv, hstate⟩ := invariant_start len hsession
  obtain rfl : w₁ = w₁' := by simpa using hstart.symm.trans hstart'
  rw [Machine.throughout_iff hexec]
  have hbegin : ForSomebody [] w₁ := fun _ hdata => by simp [hstate] at hdata
  have hkeep : ∀ done v command output v', Invariant w.mem.oom done v ∧ ForSomebody done v →
      (sessionMachine len mailPath).step v command = some (output, v') →
      Invariant w.mem.oom (done ++ [⟨v, command, output, v'⟩]) v' ∧
        ForSomebody (done ++ [⟨v, command, output, v'⟩]) v' :=
    fun _ _ _ _ _ h hstep => ⟨h.1.step hlen hstep, h.1.forSomebody hlen h.2 hstep⟩
  obtain ⟨-, hsteps⟩ := Machine.exec_steps hkeep ⟨hinv, hbegin⟩ hexec
  simp only [List.nil_append] at hsteps
  refine ⟨⟨fun hall st hmem hnobody => ?_, fun hall done st rest hsplit hstate h354 => ?_⟩,
    ⟨fun hall st hmem hnobody => ?_, fun hall st hmem hstate => ?_⟩⟩
  · obtain ⟨done, rest, hsplit⟩ := List.append_of_mem hmem
    obtain ⟨hstep, ⟨hbefore, -⟩, -⟩ := hsteps done st rest hsplit
    obtain ⟨h354, hnil, -⟩ := hbefore.accepts_nobody hlen hstep hnobody
    exact hall done st rest hsplit (by simp [hnobody.1]) h354 hnil
  · obtain ⟨hstep, ⟨hbefore, -⟩, -⟩ := hsteps done st rest hsplit
    obtain ⟨hrcpt, hdata⟩ := (hbefore.starts_data hlen hstep hstate).1.mp h354
    rw [Ne, hbefore.recipients_eq_nil_iff hrcpt]
    exact fun hnone => hall st (by simp [hsplit]) ⟨hrcpt, hnone, hdata⟩
  · obtain ⟨done, rest, hsplit⟩ := List.append_of_mem hmem
    obtain ⟨hstep, ⟨hbefore, -⟩, -⟩ := hsteps done st rest hsplit
    obtain ⟨-, -, hstate', hnone'⟩ := hbefore.accepts_nobody hlen hstep hnobody
    exact hall st hmem hstate' hnone'
  · obtain ⟨done, rest, hsplit⟩ := List.append_of_mem hmem
    obtain ⟨-, -, -, hsomebody⟩ := hsteps done st rest hsplit
    refine hsomebody (fun st' hmem' => hall st' ?_) hstate
    rw [hsplit]
    simp only [List.mem_append, List.mem_singleton] at hmem'
    simp only [List.mem_append, List.mem_cons]
    tauto

/-- EHLO, MAIL, DATA: the message is for nobody, and the server takes it. -/
theorem data_for_nobody :
    ((smtpStartSession serverReplyMaxLen idle).bind fun r =>
      (sessionMachine serverReplyMaxLen (ascii "./mail")).exec r.2
        [ascii "EHLO x", ascii "MAIL FROM:<a@b>", ascii "DATA"]).map (fun r =>
          (r.1.map (·.output), r.2.session.state, r.2.session.envelope.recipients)) =
      some ([(0, ascii "250\r\n"), (0, ascii "250 OK\r\n"), (0, ascii "354\r\n")], .mailData,
        none) := by
  decide

theorem data_needs_recipient_idle : ∃ w₁ history last,
    smtpStartSession serverReplyMaxLen idle = some (0, w₁) ∧
      (sessionMachine serverReplyMaxLen (ascii "./mail")).exec w₁
        [ascii "EHLO x", ascii "MAIL FROM:<a@b>", ascii "RCPT TO:<c@d>", ascii "DATA"] =
          some (history, last) ∧
      ((∀ st ∈ history, st.after.session.state = .mailData →
          st.after.session.envelope.recipients ≠ none) ↔
        (sessionMachine serverReplyMaxLen (ascii "./mail")).Throughout
          (fun w command => ¬DataForNobody w command) w₁
          [ascii "EHLO x", ascii "MAIL FROM:<a@b>", ascii "RCPT TO:<c@d>", ascii "DATA"]) := by
  have hsome : ((sessionMachine serverReplyMaxLen (ascii "./mail")).exec
      { idle with reply := ascii "220\r\n" } [ascii "EHLO x", ascii "MAIL FROM:<a@b>",
        ascii "RCPT TO:<c@d>", ascii "DATA"]).isSome = true := by decide
  obtain ⟨⟨history, last⟩, hexec⟩ := Option.isSome_iff_exists.mp hsome
  have hstart : smtpStartSession serverReplyMaxLen idle =
    some (0, { idle with reply := ascii "220\r\n" }) := rfl
  exact ⟨_, history, last, hstart, hexec,
    (data_needs_recipient (by decide) (ascii "./mail") rfl hstart hexec).2⟩

end Recipients

end SmtpMta.Server.SessionInvariant
