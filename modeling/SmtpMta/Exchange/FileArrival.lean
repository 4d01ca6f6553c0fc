import SmtpMta.Client.Batch
import SmtpMta.Exchange.NetworkAgreement

/-! A mail on its whole way: from its file through a worker of the client, which reads and
parses it and opens a connection for each recipient, to the lines that the server takes. -/
namespace SmtpMta.Exchange.FileArrival
open Library.CString Library.Crlf Library.Stdio Library.Trace Client.Fsm Client.Queue Client.MailFile
  Client.MailParser Client.MailBody Client.Recipients Client.SelectLoop Client.Answers Client.Batch
  Server Server.Smtp Server.MainLoop Agreement TextAgreement ManyClients NetworkAgreement

theorem finishMail_sender {s : Client.MailParser.Surroundings} {lines : Slots} {strNum toCount : Nat}
    {isHomeMode : Int} {mailFrom : Bytes} {kept : Kept} {mail : Mail} {freed : List Freed}
    (h : finishMail s lines strNum isHomeMode mailFrom toCount kept = some (some mail, freed)) :
    mail.mailFrom = mailFrom := by
  unfold finishMail at h
  split at h
  · obtain ⟨resolved, -, h⟩ := Option.bind_eq_some_iff.mp h
    cases resolved with
    | inr addrs =>
      obtain ⟨tos, -, h⟩ := Option.bind_eq_some_iff.mp h
      obtain ⟨hosts, -, h⟩ := Option.bind_eq_some_iff.mp h
      simp at h
    | inl addrs =>
      dsimp only at h
      split at h
      · obtain ⟨copied, -, h⟩ := Option.bind_eq_some_iff.mp h
        cases copied with
        | inl mailText =>
          obtain ⟨hosts, -, h⟩ := Option.bind_eq_some_iff.mp h
          obtain ⟨hmail, -⟩ := Prod.mk.inj (Option.some.inj h)
          obtain rfl := Option.some.inj hmail
          rfl
        | inr made =>
          obtain ⟨tos, -, h⟩ := Option.bind_eq_some_iff.mp h
          obtain ⟨hosts, -, h⟩ := Option.bind_eq_some_iff.mp h
          obtain ⟨addrs, -, h⟩ := Option.bind_eq_some_iff.mp h
          simp at h
      · obtain ⟨tos, -, h⟩ := Option.bind_eq_some_iff.mp h
        obtain ⟨hosts, -, h⟩ := Option.bind_eq_some_iff.mp h
        obtain ⟨freed, -, h⟩ := Option.bind_eq_some_iff.mp h
        simp at h
  · obtain ⟨tos, -, h⟩ := Option.bind_eq_some_iff.mp h
    obtain ⟨hosts, -, h⟩ := Option.bind_eq_some_iff.mp h
    simp at h

theorem parseMail_sender {s : Client.MailParser.Surroundings} {lines : Slots} {strNum : Nat}
    {isHomeMode : Int} {mail : Mail} {freed : List Freed}
    (h : parseMail s lines strNum isHomeMode = some (some mail, freed)) :
    ∃ fromRaw, (lines 0).read = some fromRaw ∧
      cutAddressesFromMailFormat s.fromCut fromRaw = some (some mail.mailFrom) := by
  unfold parseMail at h
  split at h
  · simp at h
  · obtain ⟨⟨toCount, toRaws⟩, -, h⟩ := Option.bind_eq_some_iff.mp h
    dsimp only at h
    split at h
    · simp at h
    · split at h
      · simp at h
      · obtain ⟨fromRaw, hread, h⟩ := Option.bind_eq_some_iff.mp h
        obtain ⟨mailFrom, hcut, h⟩ := Option.bind_eq_some_iff.mp h
        cases mailFrom with
        | none => simp at h
        | some mailFrom =>
          obtain ⟨result, -, h⟩ := Option.bind_eq_some_iff.mp h
          cases result with
          | inr freed => simp at h
          | inl kept => exact ⟨fromRaw, hread, by rw [finishMail_sender h, hcut]⟩

/-- A mail file that the client can send: the sender line, the recipient lines, a blank line and
a body. -/
structure Letter where
  sender : Bytes
  recipients : List Bytes
  blank : Bytes
  body : Bytes
  sender_line : HeaderText sender
  recipient_lines : ∀ text ∈ recipients, RecipientText text
  blank_line : blank = [] ∨ blank = [cr]
  body_nonempty : body ≠ []
  free : NulFree (mailFile sender recipients blank body)

def Letter.file (letter : Letter) : Bytes :=
  mailFile letter.sender letter.recipients letter.blank letter.body

def Letter.mailFrom (letter : Letter) : Option Bytes :=
  addressOf (letter.sender ++ [lf])

theorem Letter.parsed {letter : Letter} {s : Client.MailFile.Surroundings} {t : Client.MailParser.Surroundings}
    {lines : Slots} {strNum : Nat} {isHomeMode : Int} {mail : Mail} {freed : List Freed}
    {mailFrom : Bytes} (hread : readFile s (some letter.file) = some (some (lines, strNum)))
    (hparse : parseMail t lines strNum isHomeMode = some (some mail, freed))
    (hsender : letter.mailFrom = some mailFrom) :
    mail.mailText.flatten = letter.body ∧ mail.mailFrom = mailFrom := by
  obtain ⟨chunks, hchunks, rfl, rfl⟩ := readFile_spec hread
  refine ⟨(parseMail_body letter.sender_line letter.recipient_lines letter.blank_line letter.free
    hchunks hparse).1, ?_⟩
  obtain ⟨fromRaw, hraw, hcut⟩ := parseMail_sender hparse
  obtain ⟨rest, hsplit, -⟩ := mailFile_chunks letter.sender_line
    (fun text ht => (letter.recipient_lines text ht).toHeaderText) letter.blank_line hchunks
  have hfirst : chunks[0]? = some (letter.sender ++ [lf]) := by simp [hsplit]
  have hfree : NulFree (letter.sender ++ [lf]) := by
    have hall := letter.free
    rw [mailFile, List.map_cons, List.flatten_cons, nulFree_append, nulFree_append] at hall
    exact hall.1.1
  obtain rfl : letter.sender ++ [lf] = fromRaw := by
    rw [read_withChunks hfirst hfree] at hraw
    exact Option.some.inj hraw
  have hshort : (letter.sender ++ [lf]).length < 2 ^ 31 := by
    have := letter.sender_line.fits
    rw [List.length_append, List.length_singleton]
    omega
  exact cutAddresses_eq hfree hshort hsender hcut

section Worker
variable {files : List Bytes} {isHomeMode : Int} {w : Worker} {startInd count : Nat}
  {mails : List Mail} {opened : List Connection}

end Worker

section Crossing

end Crossing

end SmtpMta.Exchange.FileArrival
