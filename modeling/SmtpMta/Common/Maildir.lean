import SmtpMta.Library.CString

/-! The paths of `maildir.c`. A path is put together piece by piece in a buffer
of fixed size; a result of `none` is a write behind its end. -/
namespace SmtpMta.Common.Maildir
open Library.CString

def pathMax : Nat := 4096

def slash : Byte := 47

/-- `%s/%s`, with `snprintf` into the whole buffer. -/
def mailboxPath (maildir mailbox : Bytes) : Bytes :=
  (cstr maildir ++ slash :: cstr mailbox).take (pathMax - 1)

/-- What the first `snprintf` returns counts the bytes that did not fit, too. -/
def mailboxOffset (maildir mailbox : Bytes) : Nat :=
  (cstr maildir ++ slash :: cstr mailbox).length

/-- `snprintf` at an offset, which is told that the whole buffer is still free. -/
def printAt (path : Bytes) (offset : Nat) (text : Bytes) : Option Bytes :=
  if offset + text.length < pathMax then some (path.take offset ++ text) else none

/-- The paths that are asked for, in order, when each directory can be made or is
there: for `mkdir`, `mkdir` and `mkstemp`. The name is the date with a template. -/
def maildirTmp (maildir mailbox name : Bytes) : Option (List Bytes) := do
  let path := mailboxPath maildir mailbox
  let offset := mailboxOffset maildir mailbox
  let tmpPath ← printAt path offset (ascii "/tmp")
  let filePath ← printAt tmpPath (offset + 4) (slash :: cstr name)
  some [path, tmpPath, filePath]

/-- The paths for `mkdir` and `rename`. -/
def maildirNew (maildir mailbox name : Bytes) : Option (List Bytes) := do
  let whole := cstr maildir ++ slash :: cstr mailbox
  let tmpPath := (whole ++ ascii "/tmp/" ++ cstr name).take (pathMax - 1)
  let newPath := (whole ++ ascii "/new").take (pathMax - 1)
  let offset := (whole ++ ascii "/new").length
  let filePath ← printAt newPath offset (slash :: cstr name)
  some [newPath, tmpPath, filePath]

/-- A path to an entry of a directory: one more name, and that none of the two
that lead elsewhere. -/
def DirectChild (dir path : Bytes) : Prop :=
  ∃ name, path = dir ++ slash :: name ∧ name ≠ [] ∧ slash ∉ name ∧ name ≠ ascii "." ∧
    name ≠ ascii ".."

structure PlainName (name : Bytes) : Prop where
  ne_nil : name ≠ []
  nulFree : NulFree name
  slash : slash ∉ name
  head : name.head? ≠ some 46

section Paths
variable {maildir mailbox name : Bytes}

theorem directChild_of_plain {dir : Bytes} (h : PlainName mailbox) {n : Nat} (hn : 0 < n) :
    DirectChild dir (dir ++ slash :: mailbox.take n) := by
  obtain ⟨b, rest, rfl⟩ := List.exists_cons_of_ne_nil h.ne_nil
  obtain ⟨n, rfl⟩ := Nat.exists_eq_succ_of_ne_zero hn.ne'
  have hb : b ≠ 46 := fun heq => h.head (by simp [heq])
  have hdot : ascii "." = [46] ∧ ascii ".." = [46, 46] := by decide
  refine ⟨b :: rest.take n, rfl, by simp, ?_, ?_, ?_⟩
  · exact fun hmem => h.slash (List.mem_of_mem_take (i := n + 1) hmem)
  · simp [hdot, hb]
  · simp [hdot, hb]

theorem mailboxPath_child (h : PlainName mailbox) (hroom : (cstr maildir).length + 2 < pathMax) :
    DirectChild (cstr maildir) (mailboxPath maildir mailbox) := by
  obtain ⟨n, hn⟩ : ∃ n, pathMax - 1 = (cstr maildir).length + (n + 2) :=
    ⟨pathMax - 1 - (cstr maildir).length - 2, by omega⟩
  rw [mailboxPath, hn, List.take_length_add_append, cstr_of_nulFree h.nulFree]
  exact directChild_of_plain h (Nat.succ_pos n)

theorem printAt_eq {path text out : Bytes} {offset : Nat}
    (h : printAt path offset text = some out) :
    offset + text.length < pathMax ∧ out = path.take offset ++ text := by
  unfold printAt at h
  split at h
  · exact ⟨‹_›, (Option.some.inj h).symm⟩
  · cases h

theorem maildirTmp_eq {paths : List Bytes} (h : maildirTmp maildir mailbox name = some paths) :
    paths = [cstr maildir ++ slash :: cstr mailbox,
      cstr maildir ++ slash :: cstr mailbox ++ ascii "/tmp",
      cstr maildir ++ slash :: cstr mailbox ++ ascii "/tmp" ++ slash :: cstr name] := by
  obtain ⟨tmpPath, htmp, h⟩ := Option.bind_eq_some_iff.mp h
  obtain ⟨filePath, hfile, h⟩ := Option.bind_eq_some_iff.mp h
  obtain rfl := Option.some.inj h
  obtain ⟨hfits, rfl⟩ := printAt_eq htmp
  obtain ⟨-, rfl⟩ := printAt_eq hfile
  have hwhole : mailboxPath maildir mailbox = cstr maildir ++ slash :: cstr mailbox := by
    apply List.take_of_length_le
    unfold mailboxOffset at hfits
    omega
  have hfour : (ascii "/tmp").length = 4 := by decide
  have htmp : (mailboxPath maildir mailbox).take (mailboxOffset maildir mailbox) =
      cstr maildir ++ slash :: cstr mailbox := by
    rw [hwhole]
    exact List.take_length
  have hlen : mailboxOffset maildir mailbox + 4 =
      (cstr maildir ++ slash :: cstr mailbox ++ ascii "/tmp").length := by
    rw [List.length_append, hfour]
    rfl
  rw [htmp, hlen, List.take_length, hwhole]

theorem maildirNew_eq {paths : List Bytes} (h : maildirNew maildir mailbox name = some paths) :
    paths = [cstr maildir ++ slash :: cstr mailbox ++ ascii "/new",
      cstr maildir ++ slash :: cstr mailbox ++ ascii "/tmp/" ++ cstr name,
      cstr maildir ++ slash :: cstr mailbox ++ ascii "/new" ++ slash :: cstr name] := by
  obtain ⟨filePath, hfile, h⟩ := Option.bind_eq_some_iff.mp h
  obtain rfl := Option.some.inj h
  obtain ⟨hfits, rfl⟩ := printAt_eq hfile
  generalize cstr maildir ++ slash :: cstr mailbox = whole at hfits ⊢
  have hsizes : (ascii "/new").length = 4 ∧ (ascii "/tmp/").length = 5 := by decide
  simp only [List.length_append, List.length_cons, hsizes] at hfits
  have htmp : (whole ++ ascii "/tmp/" ++ cstr name).length ≤ pathMax - 1 := by
    simp only [List.length_append, hsizes]
    omega
  have hnew : (whole ++ ascii "/new").length ≤ pathMax - 1 := by
    simp only [List.length_append, hsizes]
    omega
  rw [List.take_of_length_le htmp, List.take_of_length_le hnew, List.take_length]

theorem maildirTmp_inside {paths : List Bytes} (h : maildirTmp maildir mailbox name = some paths) :
    ∀ path ∈ paths, cstr maildir ++ slash :: cstr mailbox <+: path := by
  rw [maildirTmp_eq h]
  simp [List.append_assoc]

theorem maildirNew_inside {paths : List Bytes} (h : maildirNew maildir mailbox name = some paths) :
    ∀ path ∈ paths, cstr maildir ++ slash :: cstr mailbox <+: path := by
  rw [maildirNew_eq h]
  simp [List.append_assoc]

end Paths

end SmtpMta.Common.Maildir
