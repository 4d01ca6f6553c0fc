import SmtpMta.Client.Fsm

/-! What the handlers put into the send buffer while memory does not run out. -/
namespace SmtpMta.Client.Queue
open Library.CString Common.SharedStrings Fsm

/-- The bytes of `send_buf` that are still to be sent. -/
def unsent (c : Conn) : Option Bytes :=
  memcpyFrom c.sendBuf c.toSend

/-- The connection in its next state, with more to send. -/
def sending (c : Conn) (state : State) (text : Bytes) : Conn :=
  { c with state, sendBuf := some text, toSend := text.length }

@[simp] theorem unsent_sending (c : Conn) (state : State) (text : Bytes) :
    unsent (sending c state text) = some text :=
  memcpyFrom_self text

variable {room : Nat → Bool} {c : Conn} {queued : Bytes}

theorem unsent_stored (hqueued : unsent c = some queued) (hint : queued.length < 2 ^ 31) :
    unsent c.stored = some queued := by
  have hlen : c.toSend = queued.length := memcpyFrom_eq hqueued
  have hstored : toInt c.toSend = c.toSend := by rw [hlen, toInt_natCast_iff.mpr hint]
  simp only [unsent, Conn.stored, hstored]
  exact hqueued

theorem memcpyFrom_cstr (block : Bytes) : memcpyFrom (some block) (strlen block) = some (cstr block) := by
  obtain ⟨more, hmore⟩ : cstr block <+: block := List.takeWhile_prefix _
  have hcopy := memcpyFrom_append (cstr block) more
  rwa [hmore] at hcopy

theorem memcpyFrom_strlen {part : Bytes} (h : NulFree part) :
    memcpyFrom (some part) (strlen part) = some part := by
  rw [memcpyFrom_cstr, cstr_of_nulFree h]

theorem concatParts_text (hroom : ∀ k, room k = true) {parts : List Bytes}
    (hparts : ∀ part ∈ parts, NulFree part) (k : Nat) (text : Bytes) :
    concatParts room k (some text, text.length) parts =
      some (some (text ++ parts.flatten), ((text ++ parts.flatten).length : Int)) := by
  induction parts generalizing k text with
  | nil => simp [concatParts]
  | cons part parts ih =>
    obtain ⟨hpart, hparts'⟩ := List.forall_mem_cons.mp hparts
    rw [concatParts, hroom, concatDynamicStrings_eq (memcpyFrom_self text) (memcpyFrom_strlen hpart)]
    simpa using ih hparts' (k + 1) (text ++ part)

theorem concatParts_new (hroom : ∀ k, room k = true) {parts : List Bytes} (hne : parts ≠ [])
    (hparts : ∀ part ∈ parts, NulFree part) :
    concatParts room 0 (none, 0) parts =
      some (some parts.flatten, (parts.flatten.length : Int)) := by
  obtain ⟨part, parts, rfl⟩ := List.exists_cons_of_ne_nil hne
  obtain ⟨hpart, hparts'⟩ := List.forall_mem_cons.mp hparts
  rw [concatParts, hroom, concatDynamicStrings_eq (memcpyFrom_zero none) (memcpyFrom_strlen hpart)]
  simpa using concatParts_text hroom hparts' 1 part

theorem queue_text (hroom : ∀ k, room k = true) {parts : List Bytes} (hne : parts ≠ [])
    (hparts : ∀ part ∈ parts, NulFree part) (hqueued : unsent c = some queued) (state : State) :
    queue room state parts c = some (state, sending c state (queued ++ parts.flatten)) := by
  simp only [queue, concatParts_new hroom hne hparts, hroom,
    concatDynamicStrings_eq hqueued (memcpyFrom_self parts.flatten), Option.bind_eq_bind,
    Option.bind_some]
  rfl

/-- The text that is sent goes on in what lies behind its block. -/
def queuedText (mailText : List Bytes) (behind : Bytes) : Bytes :=
  mailText.flatten ++ cstr behind

theorem queuedText_nulFree {mailText : List Bytes} (hfree : ∀ line ∈ mailText, NulFree line)
    (behind : Bytes) : NulFree (queuedText mailText behind) :=
  nulFree_append.mpr ⟨nulFree_flatten.mpr hfree, cstr_nulFree behind⟩

theorem handleData_text (hroom : ∀ k, room k = true) (hfree : ∀ line ∈ c.mailText, NulFree line)
    (hne : c.mailText ≠ []) (hqueued : unsent c = some queued) (behind : Bytes)
    (state : State) :
    handleData room behind state c = some (state, sending c state
      (queued ++ (queuedText c.mailText behind ++ ascii "\r\n.\r\n"))) := by
  have htext : memcpyFrom (some (c.mailText.flatten ++ behind))
      (strlen (c.mailText.flatten ++ behind)) = some (queuedText c.mailText behind) := by
    rw [memcpyFrom_cstr, cstr_append (nulFree_flatten.mpr hfree), queuedText]
  have hdot : memcpyFrom (some (ascii "\r\n.\r\n")) 5 = some (ascii "\r\n.\r\n") := by decide
  simp only [handleData, concatMailText, concatParts_new hroom hne hfree, hroom,
    concatDynamicStrings_eq (memcpyFrom_zero none) htext,
    concatDynamicStrings_eq (memcpyFrom_self _) hdot,
    concatDynamicStrings_eq hqueued (memcpyFrom_self _), Option.bind_eq_bind, Option.bind_some,
    List.nil_append]
  rfl

end SmtpMta.Client.Queue
