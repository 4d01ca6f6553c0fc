import SmtpMta.Common.Maildir
import SmtpMta.Library.Trace
import Mathlib.Logic.Function.Basic
import Mathlib.Data.List.Induction
import Mathlib.Data.List.Nodup

/-! Deliveries into one mailbox. `mkstemp` takes a name that is new in `tmp`, and
the file gets that name in `new`: there `rename` replaces what it finds. -/
namespace SmtpMta.Common.MaildirDelivery
open Library.CString Library.Trace Maildir

def maildirNameLen : Nat := 18

abbrev Files := Bytes → Option Bytes

/-- `mkstemp`, with the letters that it takes for the six of the template. -/
def mkstemp (files : Files) (template letters : Bytes) : Option (Bytes × Files) :=
  let path := template.take (template.length - 6) ++ letters
  if ascii "XXXXXX" <:+ template ∧ files path = none then
    some (path, Function.update files path (some []))
  else none

def write (files : Files) (path text : Bytes) : Files :=
  Function.update files path ((files path).map (· ++ text))

def rename (files : Files) (source target : Bytes) : Option Files :=
  if files source = none then none
  else some (Function.update (Function.update files source none) target (files source))

/-- What a delivery is made of: the day as `strftime` prints it into eleven bytes,
the letters that `mkstemp` takes, and the lines of the message. -/
structure Delivery where
  date : Bytes
  letters : Bytes
  lines : List Bytes
  date_fits : date.length ≤ 10
  date_nulFree : NulFree date
  letters_length : letters.length = 6
  letters_nulFree : NulFree letters

def Delivery.name (d : Delivery) : Bytes := d.date ++ 95 :: d.letters

def Delivery.message (d : Delivery) : Bytes := (d.lines.map cstr).flatten

/-- `snprintf(name, len, "%s_XXXXXX", date)`, into a block of zeros. -/
def printName (date : Bytes) (len : Nat) : Bytes :=
  let text := (cstr date ++ ascii "_XXXXXX").take (len - 1)
  text ++ List.replicate (len - text.length) nul

structure Paths where
  created : Bytes
  renamed : Bytes
  target : Bytes

/-- One turn of the loop of `envelope_save`: `maildir_tmp`, the writes, and
`maildir_new`. Without a result some call fails or a path leaves its buffer. -/
def deliver (maildir mailbox : Bytes) (files : Files) (d : Delivery) : Option (Paths × Files) := do
  let name := printName d.date maildirNameLen
  let template ← (← maildirTmp maildir mailbox name)[2]?
  let (created, files) ← mkstemp files template d.letters
  let name := strncpy name (created.drop (mailboxOffset maildir mailbox + 4 + 1)) maildirNameLen
  let files := d.lines.foldl (fun files line => write files created (cstr line)) files
  let paths ← maildirNew maildir mailbox name
  let renamed ← paths[1]?
  let target ← paths[2]?
  let files ← rename files renamed target
  some (⟨created, renamed, target⟩, files)

def deliveries (maildir mailbox : Bytes) : Machine Files Delivery Paths where
  step := deliver maildir mailbox

def tmpFile (maildir mailbox name : Bytes) : Bytes :=
  cstr maildir ++ slash :: cstr mailbox ++ ascii "/tmp/" ++ name

/-- The directory of the mailbox where the messages stay. -/
def newDir (maildir mailbox : Bytes) : Bytes :=
  cstr maildir ++ slash :: cstr mailbox ++ ascii "/new/"

def newFile (maildir mailbox name : Bytes) : Bytes :=
  newDir maildir mailbox ++ name

/-- The file that was made is the one that is moved; the message is in `new` as
one file more, and nothing else changed there. -/
structure Adds (maildir mailbox : Bytes) (st : Step Files Delivery Paths) : Prop where
  renamed : st.output.renamed = st.output.created
  inside : newDir maildir mailbox <+: st.output.target
  fresh : st.before st.output.target = none
  added : st.after st.output.target = some st.input.message
  kept : ∀ path text, newDir maildir mailbox <+: path → st.before path = some text →
    st.after path = some text

/-- After each delivery `new` has its message and all the ones before. -/
def LosesNothing (maildir mailbox : Bytes) (history : List (Step Files Delivery Paths)) : Prop :=
  ∀ done st rest, history = done ++ st :: rest → Adds maildir mailbox st ∧
    ∀ earlier ∈ done, st.after earlier.output.target = some earlier.input.message

section Names
variable {maildir mailbox : Bytes}

theorem Delivery.name_nulFree (d : Delivery) : NulFree d.name := by
  have hbar : NulFree [95] := by decide
  have hletters : NulFree ([95] ++ d.letters) := nulFree_append.mpr ⟨hbar, d.letters_nulFree⟩
  exact nulFree_append.mpr ⟨d.date_nulFree, hletters⟩

theorem Delivery.name_fits (d : Delivery) : strlen d.name < maildirNameLen := by
  have hdate := d.date_fits
  rw [strlen, cstr_of_nulFree d.name_nulFree]
  simp only [Delivery.name, List.length_append, List.length_cons, d.letters_length, maildirNameLen]
  omega

theorem cstr_printName (d : Delivery) :
    cstr (printName d.date maildirNameLen) = d.date ++ ascii "_XXXXXX" := by
  have hdate := d.date_fits
  have hfree : NulFree (ascii "_XXXXXX") := by decide
  have hseven : (ascii "_XXXXXX").length = 7 := by decide
  have hall : (d.date ++ ascii "_XXXXXX").take (maildirNameLen - 1) = d.date ++ ascii "_XXXXXX" := by
    apply List.take_of_length_le
    simp only [List.length_append, hseven, maildirNameLen]
    omega
  rw [printName, cstr_pad, cstr_of_nulFree d.date_nulFree, hall,
    cstr_of_nulFree (nulFree_append.mpr ⟨d.date_nulFree, hfree⟩)]

theorem newFile_inj {name name' : Bytes} :
    newFile maildir mailbox name = newFile maildir mailbox name' ↔ name = name' :=
  List.append_right_inj _

theorem template_take (dir : Bytes) (d : Delivery) :
    (dir ++ slash :: (d.date ++ ascii "_XXXXXX")).take
      ((dir ++ slash :: (d.date ++ ascii "_XXXXXX")).length - 6) ++ d.letters =
      dir ++ slash :: d.name := by
  have hsplit : ascii "_XXXXXX" = [95] ++ ascii "XXXXXX" := by decide
  have hsix : (ascii "XXXXXX").length = 6 := by decide
  have hall : dir ++ slash :: (d.date ++ ascii "_XXXXXX") =
      (dir ++ slash :: d.date ++ [95]) ++ ascii "XXXXXX" := by
    rw [hsplit]
    simp
  rw [hall, List.length_append, hsix, Nat.add_sub_cancel, List.take_left]
  simp [Delivery.name]

theorem drop_tmpFile (name : Bytes) :
    (tmpFile maildir mailbox name).drop (mailboxOffset maildir mailbox + 4 + 1) = name := by
  have hfive : (ascii "/tmp/").length = 5 := by decide
  have hlen : mailboxOffset maildir mailbox + 4 + 1 =
      (cstr maildir ++ slash :: cstr mailbox ++ ascii "/tmp/").length := by
    rw [List.length_append, hfive]
    rfl
  rw [tmpFile, hlen, List.drop_left]

theorem cstr_name_read_back (d : Delivery) :
    cstr (strncpy (printName d.date maildirNameLen)
      ((tmpFile maildir mailbox d.name).drop (mailboxOffset maildir mailbox + 4 + 1))
      maildirNameLen) = d.name := by
  rw [drop_tmpFile, cstr_strncpy d.name_fits, cstr_of_nulFree d.name_nulFree]

end Names

section Calls
variable {files files' : Files} {path text : Bytes}

theorem mkstemp_eq {template letters : Bytes}
    (h : mkstemp files template letters = some (path, files')) :
    path = template.take (template.length - 6) ++ letters ∧ files path = none ∧
      files' = Function.update files path (some []) := by
  simp only [mkstemp] at h
  split at h
  · rename_i hnew
    obtain ⟨rfl, rfl⟩ := Prod.mk.inj (Option.some.inj h)
    exact ⟨rfl, hnew.2, rfl⟩
  · cases h

theorem foldl_write (h : files path = some text) (lines : List Bytes) :
    lines.foldl (fun files line => write files path (cstr line)) files =
      Function.update files path (some (text ++ (lines.map cstr).flatten)) := by
  induction lines generalizing files text with
  | nil => simp [← h]
  | cons line lines ih =>
    have hwrite : write files path (cstr line) =
        Function.update files path (some (text ++ cstr line)) := by simp [write, h]
    have hpath : write files path (cstr line) path = some (text ++ cstr line) := by simp [hwrite]
    rw [List.foldl_cons, ih hpath, hwrite, Function.update_idem]
    simp

theorem rename_eq {source target : Bytes} (h : rename files source target = some files') :
    files' = Function.update (Function.update files source none) target (files source) := by
  unfold rename at h
  split at h
  · cases h
  · exact (Option.some.inj h).symm

end Calls

section Step
variable {maildir mailbox : Bytes}

/-- What a delivery does to the files: the message is under its name in `new`,
whatever was there, and all else is as before. -/
theorem deliver_spec {files files' : Files} {d : Delivery} {paths : Paths}
    (h : deliver maildir mailbox files d = some (paths, files')) :
    paths.renamed = paths.created ∧ paths.target = newFile maildir mailbox d.name ∧
      files' = Function.update files (newFile maildir mailbox d.name) (some d.message) := by
  obtain ⟨tmpPaths, htmp, h⟩ := Option.bind_eq_some_iff.mp h
  obtain ⟨template, htemplate, h⟩ := Option.bind_eq_some_iff.mp h
  obtain ⟨⟨created, files₁⟩, hmake, h⟩ := Option.bind_eq_some_iff.mp h
  obtain ⟨newPaths, hnew, h⟩ := Option.bind_eq_some_iff.mp h
  obtain ⟨renamed, hrenamed, h⟩ := Option.bind_eq_some_iff.mp h
  obtain ⟨target, htarget, h⟩ := Option.bind_eq_some_iff.mp h
  obtain ⟨files₂, hmove, h⟩ := Option.bind_eq_some_iff.mp h
  obtain ⟨rfl, rfl⟩ := Prod.mk.inj (Option.some.inj h)
  -- the file that is made
  rw [maildirTmp_eq htmp, cstr_printName] at htemplate
  obtain rfl := Option.some.inj htemplate
  obtain ⟨hcreated, hfree, rfl⟩ := mkstemp_eq hmake
  rw [template_take] at hcreated
  have hdirs : ascii "/tmp/" = ascii "/tmp" ++ [slash] ∧ ascii "/new/" = ascii "/new" ++ [slash] := by
    decide
  have hcreated : created = tmpFile maildir mailbox d.name := by
    rw [hcreated, tmpFile, hdirs.1]
    simp
  rw [maildirNew_eq hnew, hcreated, cstr_name_read_back] at hrenamed htarget
  have hrenamed : renamed = created := by
    rw [hcreated]
    exact (Option.some.inj hrenamed).symm
  have htarget : target = newFile maildir mailbox d.name := by
    rw [newFile, newDir, hdirs.2]
    simpa using (Option.some.inj htarget).symm
  refine ⟨hrenamed, htarget, ?_⟩
  -- what is written goes from the one to the other
  have hempty : Function.update files created (some []) created = some [] := by simp
  rw [rename_eq hmove, foldl_write hempty, hrenamed, htarget]
  simp only [Function.update_idem, Function.update_self, List.nil_append]
  rw [← hfree, Function.update_eq_self]
  rfl

theorem adds_iff {st : Step Files Delivery Paths}
    (h : deliver maildir mailbox st.before st.input = some (st.output, st.after)) :
    Adds maildir mailbox st ↔ st.before (newFile maildir mailbox st.input.name) = none := by
  obtain ⟨hrenamed, htarget, hafter⟩ := deliver_spec h
  constructor
  · intro hadds
    rw [← htarget]
    exact hadds.fresh
  · intro hfree
    constructor
    case renamed => exact hrenamed
    case inside =>
      rw [htarget]
      exact List.prefix_append ..
    case fresh => rw [htarget, hfree]
    case added => rw [htarget, hafter, Function.update_self]
    case kept =>
      intro path text _ htext
      have hne : path ≠ newFile maildir mailbox st.input.name := by
        rintro rfl
        rw [hfree] at htext
        cases htext
      rw [hafter, Function.update_of_ne hne, htext]

end Step

section Runs
variable {maildir mailbox : Bytes} {files last : Files} {inputs : List Delivery}
  {history : List (Step Files Delivery Paths)}

theorem new_names (h : (deliveries maildir mailbox).exec files inputs = some (history, last))
    {done rest : List (Step Files Delivery Paths)} {st : Step Files Delivery Paths}
    (hsplit : history = done ++ st :: rest) (name : Bytes) :
    st.before (newFile maildir mailbox name) = none ↔
      files (newFile maildir mailbox name) = none ∧ ∀ earlier ∈ done, earlier.input.name ≠ name := by
  let Inv (past : List (Step Files Delivery Paths)) (now : Files) : Prop :=
    now (newFile maildir mailbox name) = none ↔
      files (newFile maildir mailbox name) = none ∧ ∀ earlier ∈ past, earlier.input.name ≠ name
  have hinit : Inv [] files := by simp [Inv]
  have hstep : ∀ past now d paths now', Inv past now →
      (deliveries maildir mailbox).step now d = some (paths, now') →
        Inv (past ++ [⟨now, d, paths, now'⟩]) now' := by
    intro past now d paths now' hinv hd
    obtain ⟨-, -, rfl⟩ := deliver_spec hd
    by_cases heq : d.name = name
    · subst heq
      simp [Inv]
    · have hne : newFile maildir mailbox name ≠ newFile maildir mailbox d.name :=
        fun h => heq (newFile_inj.mp h).symm
      simpa [Inv, Function.update_of_ne hne, or_imp, forall_and, heq, and_assoc] using hinv
  exact ((Machine.exec_steps hstep hinit h).2 done st rest hsplit).2.1

theorem earlier_kept (h : (deliveries maildir mailbox).exec files inputs = some (history, last))
    (hadds : ∀ st ∈ history, Adds maildir mailbox st)
    {done rest : List (Step Files Delivery Paths)} {st : Step Files Delivery Paths}
    (hsplit : history = done ++ st :: rest) {earlier : Step Files Delivery Paths}
    (hearlier : earlier ∈ done) :
    st.after earlier.output.target = some earlier.input.message := by
  let Inv (past : List (Step Files Delivery Paths)) (now : Files) : Prop :=
    (∀ st ∈ past, Adds maildir mailbox st) →
      ∀ st ∈ past, now st.output.target = some st.input.message
  have hinit : Inv [] files := by simp [Inv]
  have hstep : ∀ past now d paths now', Inv past now →
      (deliveries maildir mailbox).step now d = some (paths, now') →
        Inv (past ++ [⟨now, d, paths, now'⟩]) now' := by
    intro past now d paths now' hinv _ hall st hst
    have hlast : Adds maildir mailbox ⟨now, d, paths, now'⟩ := hall _ (by simp)
    rcases List.mem_append.mp hst with hst | hst
    · have hpast := hinv (fun st hst => hall st (by simp [hst])) st hst
      exact hlast.kept _ _ (hall st (by simp [hst])).inside hpast
    · obtain rfl := List.mem_singleton.mp hst
      exact hlast.added
  have hafter := ((Machine.exec_steps hstep hinit h).2 done st rest hsplit).2.2
  rw [List.nil_append] at hafter
  refine hafter (fun st' hst' => hadds st' ?_) earlier (by simp [hearlier])
  rw [hsplit]
  simp only [List.mem_append, List.mem_cons] at hst' ⊢
  tauto

theorem nodup_map_iff {α β : Type} {f : α → β} {xs : List α} :
    (xs.map f).Nodup ↔ ∀ done x rest, xs = done ++ x :: rest → ∀ y ∈ done, f y ≠ f x := by
  constructor
  · rintro h done x rest rfl y hy
    rw [List.map_append, List.nodup_append] at h
    exact h.2.2 (f y) (List.mem_map_of_mem hy) (f x) (by simp)
  · intro h
    induction xs using List.reverseRecOn with
    | nil => exact List.nodup_nil
    | append_singleton xs x ih =>
      have hxs : (xs.map f).Nodup :=
        ih fun done y rest hsplit => h done y (rest ++ [x]) (by simp [hsplit])
      have hx : f x ∉ xs.map f := by
        intro hmem
        obtain ⟨y, hy, heq⟩ := List.mem_map.mp hmem
        exact h xs x [] rfl y hy heq
      rw [List.map_append, List.map_singleton, ← List.concat_eq_append]
      exact hxs.concat hx

/-- A history of deliveries loses no message exactly if they take different
names, and none that a file in `new` had at the start. -/
theorem loses_nothing_iff
    (h : (deliveries maildir mailbox).exec files inputs = some (history, last)) :
    LosesNothing maildir mailbox history ↔
      (inputs.map Delivery.name).Nodup ∧
        ∀ d ∈ inputs, files (newFile maildir mailbox d.name) = none := by
  have hinputs : history.map Step.input = inputs :=
    (Machine.exec_inputs h).2 fun _ _ => rfl
  have hadds : ∀ done st rest, history = done ++ st :: rest →
      (Adds maildir mailbox st ↔ files (newFile maildir mailbox st.input.name) = none ∧
        ∀ earlier ∈ done, earlier.input.name ≠ st.input.name) := by
    intro done st rest hsplit
    rw [adds_iff (Machine.exec_step h (by simp [hsplit])), new_names h hsplit]
  rw [← hinputs, List.map_map, nodup_map_iff]
  constructor
  · intro hall
    refine ⟨fun done st rest hsplit => ((hadds done st rest hsplit).mp (hall done st rest hsplit).1).2,
      fun d hd => ?_⟩
    obtain ⟨st, hst, rfl⟩ := List.mem_map.mp hd
    obtain ⟨done, rest, hsplit⟩ := List.append_of_mem hst
    exact ((hadds done st rest hsplit).mp (hall done st rest hsplit).1).1
  · rintro ⟨hdifferent, hfresh⟩
    have hall : ∀ st ∈ history, Adds maildir mailbox st := by
      intro st hst
      obtain ⟨done, rest, hsplit⟩ := List.append_of_mem hst
      exact (hadds done st rest hsplit).mpr
        ⟨hfresh _ (List.mem_map_of_mem hst), hdifferent done st rest hsplit⟩
    exact fun done st rest hsplit =>
      ⟨hall st (by simp [hsplit]), fun earlier hearlier => earlier_kept h hall hsplit hearlier⟩

def noFiles : Files := fun _ => none

def sameName (line : Bytes) : Delivery where
  date := ascii "2024-05-17"
  letters := ascii "aB3dE6"
  lines := [line]
  date_fits := by decide
  date_nulFree := by decide
  letters_length := by decide
  letters_nulFree := by decide

/-- A message of the same day with other letters. -/
def otherName (line : Bytes) : Delivery :=
  { sameName line with
    letters := ascii "Zz9yX8"
    letters_length := by decide
    letters_nulFree := by decide }

/-- A mailbox with a message of another day. -/
def oneMessage : Files := fun path =>
  if path = newFile (ascii "/var/mail") (ascii "a@b") (ascii "2024-05-16_aB3dE6") then
    some (ascii "old")
  else none

/-- Two messages with different letters come to the one that is there. -/
theorem loses_nothing_iff_two : ∃ history last,
    (deliveries (ascii "/var/mail") (ascii "a@b")).exec oneMessage
        [sameName (ascii "first"), otherName (ascii "second")] = some (history, last) ∧
      LosesNothing (ascii "/var/mail") (ascii "a@b") history ∧
      last (newFile (ascii "/var/mail") (ascii "a@b") (ascii "2024-05-16_aB3dE6")) =
        some (ascii "old") := by
  have hruns : ((deliveries (ascii "/var/mail") (ascii "a@b")).exec oneMessage
      [sameName (ascii "first"), otherName (ascii "second")]).map (fun run =>
        run.2 (newFile (ascii "/var/mail") (ascii "a@b") (ascii "2024-05-16_aB3dE6"))) =
      some (some (ascii "old")) := by decide +kernel
  obtain ⟨⟨history, last⟩, hexec, hold⟩ := Option.map_eq_some_iff.mp hruns
  exact ⟨history, last, hexec, (loses_nothing_iff hexec).mpr ⟨by decide, by decide +kernel⟩, hold⟩

/-- The name is free in `tmp` again, and the second message replaces the first. -/
theorem replaces_first : ∃ history last,
    (deliveries (ascii "/var/mail") (ascii "a@b")).exec noFiles
        [sameName (ascii "first"), sameName (ascii "second")] = some (history, last) ∧
      (∀ path, newDir (ascii "/var/mail") (ascii "a@b") <+: path → last path ≠ some (ascii "first")) ∧
      ¬LosesNothing (ascii "/var/mail") (ascii "a@b") history := by
  have hruns : ((deliveries (ascii "/var/mail") (ascii "a@b")).exec noFiles
      [sameName (ascii "first"), sameName (ascii "second")]).isSome = true := by decide +kernel
  obtain ⟨⟨history, last⟩, hexec⟩ := Option.isSome_iff_exists.mp hruns
  obtain ⟨paths, files, rest, hfirst, hhistory, hexec'⟩ := Machine.exec_cons hexec
  obtain ⟨-, hexec'⟩ := hexec'.resolve_left fun h => Bool.false_ne_true h.1
  obtain ⟨paths', files', rest', hsecond, rfl, hend⟩ := Machine.exec_cons hexec'
  obtain ⟨-, hend⟩ := hend.resolve_left fun h => Bool.false_ne_true h.1
  obtain ⟨rfl, rfl⟩ : [] = rest' ∧ files' = last := by simpa [Machine.exec] using hend
  have hname : (sameName (ascii "first")).name = (sameName (ascii "second")).name := rfl
  obtain ⟨-, -, rfl⟩ := deliver_spec hfirst
  obtain ⟨-, htarget, rfl⟩ := deliver_spec hsecond
  refine ⟨history, _, hexec, fun path _ hpath => ?_, fun hall => ?_⟩
  · have hmessages : (sameName (ascii "second")).message ≠ ascii "first" := by decide
    by_cases heq : path = newFile (ascii "/var/mail") (ascii "a@b") (sameName (ascii "second")).name
    · rw [heq, Function.update_self] at hpath
      exact hmessages (Option.some.inj hpath)
    · rw [Function.update_of_ne heq, hname, Function.update_of_ne heq] at hpath
      cases hpath
  · obtain ⟨hadds, -⟩ := hall [_] _ [] hhistory
    have hfresh := hadds.fresh
    rw [htarget, hname] at hfresh
    simp at hfresh

end Runs

end SmtpMta.Common.MaildirDelivery
