import SmtpMta.Common.Maildir

/-! The listing of the mail directory, from `dir_worker.c`. One pass over the
directory counts the files, and a second one writes their names. -/
namespace SmtpMta.Client.DirWorker
open Library.CString Common.Maildir

def dtReg : Nat := 8

structure Entry where
  name : Bytes
  dType : Nat

/-- What a pass finds: whether `opendir` and `closedir` succeed, and the entries,
which have different names. -/
structure Pass where
  opens : Bool
  entries : List Entry
  closes : Bool
  distinct : (entries.map fun entry => cstr entry.name).Nodup

/-- An `unsigned` as an `int`, and the other way. -/
def asInt (n : Nat) : Int := if n < 2 ^ 31 then n else n - 2 ^ 32

def asUnsigned (n : Int) : Nat := (n % 2 ^ 32).toNat

def countFiles : List Entry → Nat → Nat
  | [], count => count
  | entry :: entries, count =>
    countFiles entries (if entry.dType = dtReg then (count + 1) % 2 ^ 32 else count)

def getFilesCount (pass : Pass) : Int :=
  if pass.opens = false then -1
  else
    let count := countFiles pass.entries 0
    if pass.closes = false then -1 else asInt count

def writeName (name dirPath dName : Bytes) : Option Bytes := do
  let name ← strcpy name dirPath
  let name ← strcat name (ascii "/")
  strcat name dName

/-- The loop of `get_files_names`, and how many names it has written. A result of
`none` is a write behind the end of a name or of the array. -/
def writeNames (dirPath : Bytes) (filesCount : Int) :
    List Entry → List Bytes → Nat → Option (List Bytes × Nat)
  | [], filesNames, count => some (filesNames, count)
  | entry :: entries, filesNames, count =>
    if asUnsigned filesCount ≤ count then some (filesNames, count)
    else if entry.dType = dtReg then do
      let name ← filesNames[count]?
      let name ← writeName name dirPath entry.name
      writeNames dirPath filesCount entries (filesNames.set count name) ((count + 1) % 2 ^ 32)
    else writeNames dirPath filesCount entries filesNames count

def getFilesNames (dirPath : Bytes) (pass : Pass) (filesNames : List Bytes) (filesCount : Int) :
    Option (Int × List Bytes × Nat) :=
  if pass.opens = false then some (-1, filesNames, 0)
  else do
    let (filesNames, written) ← writeNames dirPath filesCount pass.entries filesNames 0
    some (if pass.closes = false then -1 else 0, filesNames, written)

structure Room where
  result : Bool
  array : Bool
  name : Nat → Option Bytes
  sized : ∀ i block, name i = some block → block.length = pathMax

/-- The loop that allocates the names; after a failure, those before are freed. -/
def allocNames (room : Room) : Nat → Option (List Bytes)
  | 0 => some []
  | n + 1 => do
    let filesNames ← allocNames room n
    let name ← room.name n
    some (filesNames ++ [name])

structure MailFiles where
  files : List Bytes
  count : Int

def checkDirectory (dirPath : Bytes) (room : Room) (counting naming : Pass) :
    Option (Option MailFiles × Nat) :=
  if room.result = false then some (none, 0)
  else
    let count := getFilesCount counting
    if count < 0 then some (none, 0)
    else if count = 0 then some (some ⟨[], 0⟩, 0)
    else if room.array = false then some (none, 0)
    else
      match allocNames room count.toNat with
      | none => some (none, 0)
      | some filesNames => do
        let (ret, filesNames, written) ← getFilesNames dirPath naming filesNames count
        some (if ret ≠ 0 then none else some ⟨filesNames, count⟩, written)

/-- `clear_mail_files` reads what its argument points to: a null pointer is a crash. -/
def clearMailFiles (mails : Option MailFiles) : Option Unit :=
  mails.map fun _ => ()

def filePath (dirPath : Bytes) (entry : Entry) : Bytes :=
  cstr dirPath ++ slash :: cstr entry.name

/-- The count is that of the names that were written, and each name is the path of a
regular entry of its own. -/
def Consistent (dirPath : Bytes) (naming : Pass) (mails : MailFiles) (written : Nat) : Prop :=
  mails.count = written ∧ ∃ chosen : List Entry,
    mails.count = chosen.length ∧ mails.files.map cstr = chosen.map (filePath dirPath) ∧
      (chosen.map fun entry => cstr entry.name).Nodup ∧
      ∀ entry ∈ chosen, entry ∈ naming.entries ∧ entry.dType = dtReg

/-- The call stays in its buffers, and a result that it returns is consistent. -/
def ListsWell (dirPath : Bytes) (naming : Pass) : Option (Option MailFiles × Nat) → Prop
  | none => False
  | some (none, _) => True
  | some (some mails, written) => Consistent dirPath naming mails written

def regular (entries : List Entry) : List Entry :=
  entries.filter fun entry => entry.dType = dtReg

def Fits (dirPath : Bytes) (entry : Entry) : Prop :=
  (filePath dirPath entry).length < pathMax

structure Names (room : Room) (counting naming : Pass) (n : Nat) : Prop where
  result : room.result = true
  passed : counting.opens = true ∧ counting.closes = true
  counted : n = (regular counting.entries).length % 2 ^ 32
  positive : 0 < n ∧ n < 2 ^ 31
  array : room.array = true
  names : ∀ i < n, (room.name i).isSome
  opens : naming.opens = true

section Counting

theorem countFiles_eq (entries : List Entry) {count : Nat} (h : count < 2 ^ 32) :
    countFiles entries count = (count + (regular entries).length) % 2 ^ 32 := by
  induction entries generalizing count with
  | nil => simpa [countFiles, regular] using (Nat.mod_eq_of_lt h).symm
  | cons entry entries ih =>
    by_cases hreg : entry.dType = dtReg
    · rw [countFiles, if_pos hreg, ih (Nat.mod_lt _ (by decide))]
      simp only [regular, List.filter_cons, hreg, decide_true, if_true, List.length_cons]
      omega
    · rw [countFiles, if_neg hreg, ih h]
      simp [regular, hreg]

theorem asUnsigned_of_lt {n : Nat} (h : n < 2 ^ 31) : asUnsigned n = n := by
  unfold asUnsigned
  omega

theorem getFilesCount_eq_iff {pass : Pass} {n : Nat} (hn : 0 < n) :
    getFilesCount pass = n ↔ (pass.opens = true ∧ pass.closes = true) ∧
      n = (regular pass.entries).length % 2 ^ 32 ∧ n < 2 ^ 31 := by
  have hcount : countFiles pass.entries 0 = (regular pass.entries).length % 2 ^ 32 := by
    rw [countFiles_eq _ (by decide), Nat.zero_add]
  have hlt : (regular pass.entries).length % 2 ^ 32 < 2 ^ 32 := Nat.mod_lt _ (by decide)
  rw [getFilesCount, hcount]
  generalize (regular pass.entries).length % 2 ^ 32 = count at hlt
  cases hopens : pass.opens
  · simp
  cases hcloses : pass.closes
  · simp
  · simp only [Bool.true_eq_false, if_false, and_self, true_and, asInt]
    split <;> omega

end Counting

section Naming
variable {dirPath : Bytes} {entry : Entry}

theorem writeName_fits {name : Bytes} (hsize : name.length = pathMax) (h : Fits dirPath entry) :
    ∃ block, writeName name dirPath entry.name = some block ∧ block.length = pathMax ∧
      cstr block = filePath dirPath entry := by
  have hslash : cstr (ascii "/") = [slash] := by decide
  have hlen : strlen dirPath + 1 + strlen entry.name < pathMax := by
    unfold Fits filePath at h
    simp only [List.length_append, List.length_cons] at h
    unfold strlen
    omega
  obtain ⟨dir, hdir, hdirLen, hdirText⟩ : ∃ block, strcpy name dirPath = some block ∧ _ :=
    strcpy_fits (by omega)
  obtain ⟨mid, hmid, hmidLen, hmidText⟩ : ∃ block, strcat dir (ascii "/") = some block ∧ _ := by
    apply strcat_fits
    rw [strlen, strlen, hdirText, hslash, hdirLen, hsize, List.length_singleton, ← strlen]
    omega
  rw [hdirText, hslash] at hmidText
  obtain ⟨block, hblock, hblockLen, hblockText⟩ :
      ∃ block, strcat mid entry.name = some block ∧ _ := by
    apply strcat_fits
    rw [strlen, hmidText, hmidLen, hdirLen, hsize, List.length_append, List.length_singleton,
      ← strlen]
    exact hlen
  refine ⟨block, ?_, ?_, ?_⟩
  · simp [writeName, hdir, hmid, hblock]
  · rw [hblockLen, hmidLen, hdirLen, hsize]
  · rw [hblockText, hmidText, filePath, List.append_assoc, List.singleton_append]

theorem writeName_overflow {name : Bytes} (hsize : name.length = pathMax)
    (h : ¬Fits dirPath entry) : writeName name dirPath entry.name = none := by
  have hslash : cstr (ascii "/") = [slash] := by decide
  by_cases hdirFits : strlen dirPath < name.length
  · obtain ⟨dir, hdir, hdirLen, hdirText⟩ := strcpy_fits hdirFits
    by_cases hmidFits : strlen dir + strlen (ascii "/") < dir.length
    · obtain ⟨mid, hmid, hmidLen, hmidText⟩ := strcat_fits hmidFits
      have hend : strcat mid entry.name = none := by
        apply strcat_overflow
        rw [strlen, hmidText, hmidLen, hdirLen, hsize, hdirText, hslash]
        unfold Fits filePath at h
        simpa [strlen, Nat.add_assoc, Nat.add_comm 1] using h
      simp [writeName, hdir, hmid, hend]
    · have hend : strcat dir (ascii "/") = none := strcat_overflow (Nat.not_lt.mp hmidFits)
      simp [writeName, hdir, hend]
  · have hend : strcpy name dirPath = none := if_neg hdirFits
    simp [writeName, hend]

theorem regular_take_cons (h : entry.dType = dtReg) (entries : List Entry) (n : Nat) :
    (regular (entry :: entries)).take (n + 1) = entry :: (regular entries).take n := by
  simp [regular, h]

theorem regular_skip (h : entry.dType ≠ dtReg) (entries : List Entry) :
    regular (entry :: entries) = regular entries := by
  simp [regular, h]

theorem writeNames_step {entries : List Entry} {done rest : List Bytes} {block : Bytes}
    (hreg : entry.dType = dtReg) (hcount : (done ++ block :: rest).length < 2 ^ 31) :
    writeNames dirPath (done ++ block :: rest).length (entry :: entries) (done ++ block :: rest)
        done.length =
      (writeName block dirPath entry.name).bind fun written =>
        writeNames dirPath (done ++ [written] ++ rest).length entries (done ++ [written] ++ rest)
          (done ++ [written]).length := by
  have hget : (done ++ block :: rest)[done.length]? = some block := by simp
  rw [writeNames, asUnsigned_of_lt hcount, if_neg (by simp), if_pos hreg, hget, Option.bind_eq_bind,
    Option.bind_some]
  congr 1
  funext written
  have hset : (done ++ block :: rest).set done.length written = done ++ [written] ++ rest := by simp
  have hlength : (done ++ block :: rest).length = (done ++ [written] ++ rest).length := by simp
  have hnext : (done.length + 1) % 2 ^ 32 = (done ++ [written]).length := by
    simp only [List.length_append, List.length_cons] at hcount ⊢
    rw [Nat.mod_eq_of_lt (by omega)]
    rfl
  rw [hset, hlength, hnext]

theorem writeNames_fits {entries : List Entry} {done rest : List Bytes}
    (hsize : ∀ block ∈ rest, block.length = pathMax) (hcount : (done ++ rest).length < 2 ^ 31)
    (h : ∀ entry ∈ (regular entries).take rest.length, Fits dirPath entry) :
    ∃ names, writeNames dirPath (done ++ rest).length entries (done ++ rest) done.length =
        some (done ++ names ++ rest.drop names.length, done.length + names.length) ∧
      names.map cstr = ((regular entries).take rest.length).map (filePath dirPath) := by
  induction entries generalizing done rest with
  | nil => exact ⟨[], by simp [writeNames], by simp [regular]⟩
  | cons entry entries ih =>
    cases rest with
    | nil =>
      refine ⟨[], ?_, by simp⟩
      rw [writeNames, asUnsigned_of_lt hcount]
      simp
    | cons block rest =>
      by_cases hreg : entry.dType = dtReg
      · rw [List.length_cons, regular_take_cons hreg] at h ⊢
        obtain ⟨written, hwritten, hlen, htext⟩ :=
          writeName_fits (hsize block (by simp)) (h entry (by simp))
        have hcount' : (done ++ [written] ++ rest).length < 2 ^ 31 := by simpa using hcount
        obtain ⟨names, hnames, htexts⟩ := ih (fun block hblock => hsize block (by simp [hblock]))
          hcount' fun entry hentry => h entry (by simp [hentry])
        refine ⟨written :: names, ?_, by simp [htext, htexts]⟩
        rw [writeNames_step hreg hcount, hwritten, Option.bind_some, hnames]
        simp [Nat.add_comm 1, Nat.add_assoc]
      · rw [regular_skip hreg] at h ⊢
        rw [writeNames, asUnsigned_of_lt hcount, if_neg (by simp), if_neg hreg]
        exact ih hsize hcount h

theorem writeNames_overflow {entries : List Entry} {done rest : List Bytes}
    (hsize : ∀ block ∈ rest, block.length = pathMax) (hcount : (done ++ rest).length < 2 ^ 31)
    (h : ∃ entry ∈ (regular entries).take rest.length, ¬Fits dirPath entry) :
    writeNames dirPath (done ++ rest).length entries (done ++ rest) done.length = none := by
  induction entries generalizing done rest with
  | nil => simp [regular] at h
  | cons entry entries ih =>
    cases rest with
    | nil => simp at h
    | cons block rest =>
      by_cases hreg : entry.dType = dtReg
      · rw [writeNames_step hreg hcount]
        rw [List.length_cons, regular_take_cons hreg] at h
        obtain ⟨long, hmem, hover⟩ := h
        by_cases hfits : Fits dirPath entry
        · obtain ⟨written, hwritten, -, -⟩ := writeName_fits (hsize block (by simp)) hfits
          have hcount' : (done ++ [written] ++ rest).length < 2 ^ 31 := by simpa using hcount
          rw [hwritten, Option.bind_some]
          have hrest : long ∈ (regular entries).take rest.length :=
            (List.mem_cons.mp hmem).resolve_left fun heq => hover (heq ▸ hfits)
          exact ih (fun block hblock => hsize block (by simp [hblock])) hcount' ⟨long, hrest, hover⟩
        · rw [writeName_overflow (hsize block (by simp)) hfits, Option.bind_none]
      · rw [regular_skip hreg] at h
        rw [writeNames, asUnsigned_of_lt hcount, if_neg (by simp), if_neg hreg]
        exact ih hsize hcount h

end Naming

section Listing
variable {dirPath : Bytes} {room : Room} {counting naming : Pass}

theorem allocNames_rooms {n : Nat} {names : List Bytes} (h : allocNames room n = some names) :
    ∀ i < n, (room.name i).isSome := by
  induction n generalizing names with
  | zero => simp
  | succ n ih =>
    obtain ⟨before, hbefore, h⟩ := Option.bind_eq_some_iff.mp h
    obtain ⟨name, hname, -⟩ := Option.bind_eq_some_iff.mp h
    intro i hi
    rcases Nat.lt_succ_iff_lt_or_eq.mp hi with hi | rfl
    · exact ih hbefore i hi
    · simp [hname]

theorem allocNames_some {n : Nat} (h : ∀ i < n, (room.name i).isSome) :
    ∃ names, allocNames room n = some names ∧ names.length = n ∧
      ∀ block ∈ names, block.length = pathMax := by
  induction n with
  | zero => exact ⟨[], rfl, rfl, by simp⟩
  | succ n ih =>
    obtain ⟨before, hbefore, hlen, hsize⟩ := ih fun i hi => h i (by omega)
    obtain ⟨name, hname⟩ := Option.isSome_iff_exists.mp (h n (Nat.lt_succ_self n))
    refine ⟨before ++ [name], by simp [allocNames, hbefore, hname], by simp [hlen], ?_⟩
    intro block hblock
    rcases List.mem_append.mp hblock with hblock | hblock
    · exact hsize block hblock
    · obtain rfl := List.mem_singleton.mp hblock
      exact room.sized n block hname

theorem checkDirectory_early (h : ∀ n, ¬Names room counting naming n) :
    ListsWell dirPath naming (checkDirectory dirPath room counting naming) := by
  unfold checkDirectory
  split
  · trivial
  rename_i hresult
  dsimp only
  split
  · trivial
  split
  · exact ⟨rfl, [], rfl, rfl, List.nodup_nil, by simp⟩
  split
  · trivial
  rename_i hnegative hzero harray
  split
  · trivial
  · rename_i names halloc
    -- only the second `opendir` is left to fail
    have hopens : naming.opens = false := by
      by_contra hopens
      have hpositive : 0 < (getFilesCount counting).toNat := by omega
      have hcount : getFilesCount counting = (getFilesCount counting).toNat := by omega
      obtain ⟨hpassed, hcounted, hlt⟩ := (getFilesCount_eq_iff hpositive).mp hcount
      exact h _ ⟨by simpa using hresult, hpassed, hcounted, ⟨hpositive, hlt⟩, by simpa using harray,
        allocNames_rooms halloc, by simpa using hopens⟩
    simp [getFilesNames, hopens, ListsWell]

theorem checkDirectory_names {n : Nat} (h : Names room counting naming n) :
    ∃ names, names.length = n ∧ (∀ block ∈ names, block.length = pathMax) ∧
      checkDirectory dirPath room counting naming =
        (writeNames dirPath n naming.entries names 0).map fun (names, written) =>
          (if naming.closes = false then none else some ⟨names, n⟩, written) := by
  have hcount : getFilesCount counting = n :=
    (getFilesCount_eq_iff h.positive.1).mpr ⟨h.passed, h.counted, h.positive.2⟩
  obtain ⟨names, halloc, hlen, hsize⟩ := allocNames_some h.names
  have hpositive := h.positive.1
  refine ⟨names, hlen, hsize, ?_⟩
  rw [checkDirectory, if_neg (by simp [h.result]), hcount]
  dsimp only
  rw [if_neg (by omega), if_neg (by omega), if_neg (by simp [h.array]), Int.toNat_natCast, halloc]
  simp only [getFilesNames, h.opens]
  cases writeNames dirPath n naming.entries names 0 with
  | none => simp
  | some result => cases naming.closes <;> simp

theorem regular_take_nodup (pass : Pass) (n : Nat) :
    (((regular pass.entries).take n).map fun entry => cstr entry.name).Nodup := by
  have hsub : ((regular pass.entries).take n).Sublist pass.entries :=
    (List.take_sublist ..).trans List.filter_sublist
  exact pass.distinct.sublist (hsub.map _)

theorem consistent_iff {names written : List Bytes}
    (htext : written.map cstr =
      ((regular naming.entries).take names.length).map (filePath dirPath)) :
    Consistent dirPath naming ⟨written ++ names.drop written.length, names.length⟩ written.length ↔
      names.length ≤ (regular naming.entries).length := by
  have hlen : written.length = min names.length (regular naming.entries).length := by
    simpa using congrArg List.length htext
  constructor
  · rintro ⟨hcount, -⟩
    dsimp only at hcount
    omega
  · intro h
    have hall : written.length = names.length := by omega
    refine ⟨congrArg Nat.cast hall.symm, (regular naming.entries).take names.length, ?_, ?_,
      regular_take_nodup naming _, ?_⟩
    · rw [List.length_take, ← hlen, hall]
    · rw [← htext, hall, List.drop_length, List.append_nil]
    · intro entry hentry
      simpa using List.mem_filter.mp (List.mem_of_mem_take hentry)

/-- The listing of a directory is right exactly if all paths fit and the second
pass still finds as many files as the first. -/
theorem lists_well_iff :
    ListsWell dirPath naming (checkDirectory dirPath room counting naming) ↔
      ∀ n, Names room counting naming n →
        (∀ entry ∈ (regular naming.entries).take n, Fits dirPath entry) ∧
          (naming.closes = true → n ≤ (regular naming.entries).length) := by
  by_cases hnames : ∃ n, Names room counting naming n
  · obtain ⟨n, hn⟩ := hnames
    have hlt := hn.positive.2
    have hunique (m : Nat) (hm : Names room counting naming m) : m = n :=
      hm.counted.trans hn.counted.symm
    trans (∀ entry ∈ (regular naming.entries).take n, Fits dirPath entry) ∧
      (naming.closes = true → n ≤ (regular naming.entries).length)
    · obtain ⟨names, rfl, hsize, heq⟩ := @checkDirectory_names dirPath _ _ _ n hn
      rw [heq]
      by_cases hfits : ∀ entry ∈ (regular naming.entries).take names.length, Fits dirPath entry
      · obtain ⟨written, hwritten, htext⟩ := @writeNames_fits dirPath _ [] names hsize hlt hfits
        simp only [List.nil_append, List.length_nil, Nat.zero_add] at hwritten
        rw [hwritten, Option.map_some]
        cases naming.closes with
        | false => simpa [ListsWell] using hfits
        | true =>
          have hiff := consistent_iff htext
          exact ⟨fun h => ⟨hfits, fun _ => hiff.mp h⟩, fun h => hiff.mpr (h.2 rfl)⟩
      · have hover : ∃ entry ∈ (regular naming.entries).take names.length, ¬Fits dirPath entry := by
          simpa using hfits
        have hnone := @writeNames_overflow dirPath _ [] names hsize hlt hover
        simp only [List.nil_append, List.length_nil] at hnone
        rw [hnone]
        exact ⟨False.elim, fun h => hfits h.1⟩
    · exact ⟨fun h m hm => hunique m hm ▸ h, fun h => h n hn⟩
  · have hnone : ∀ n, ¬Names room counting naming n := fun n hn => hnames ⟨n, hn⟩
    exact ⟨fun _ n hn => absurd hn (hnone n), fun _ => checkDirectory_early hnone⟩

end Listing

def plenty : Room where
  result := true
  array := true
  name _ := some (List.replicate pathMax 88)
  sized _ block h := by
    obtain rfl := Option.some.inj h
    exact List.length_replicate

def oneFile : Pass where
  opens := true
  entries := [⟨ascii "1.txt", dtReg⟩]
  closes := true
  distinct := by simp

def noFile : Pass where
  opens := true
  entries := []
  closes := true
  distinct := by simp

/-- A file that is removed between the passes is counted without a name. -/
theorem counts_removed_file :
    (checkDirectory (ascii "mails") plenty oneFile noFile).map (fun (mails, written) =>
        (mails.map MailFiles.count, written)) = some (some 1, 0) ∧
      ¬ListsWell (ascii "mails") noFile
        (checkDirectory (ascii "mails") plenty oneFile noFile) := by
  have hrun : (checkDirectory (ascii "mails") plenty oneFile noFile).map (fun (mails, written) =>
      (mails.map MailFiles.count, written)) = some (some 1, 0) := by decide +kernel
  refine ⟨hrun, fun hwell => ?_⟩
  obtain ⟨⟨mails, written⟩, hresult, hcounts⟩ := Option.map_eq_some_iff.mp hrun
  obtain ⟨hmails, rfl⟩ := Prod.mk.inj hcounts
  obtain ⟨mails, rfl, hcount⟩ := Option.map_eq_some_iff.mp hmails
  rw [hresult] at hwell
  have hwritten : mails.count = 0 := hwell.1
  omega

end SmtpMta.Client.DirWorker
