import SmtpMta.Client.Batch
import SmtpMta.Client.DirWorker
import SmtpMta.Library.Trace
import Mathlib.Data.List.Nodup

/-! The turns of `main_loop` over the mail directory, into which others put files at any
time. A file is there until a turn has handed what it holds to one worker. -/
namespace SmtpMta.Client.DirectoryTurns
open Library.CString Library.Trace Common.Maildir DirWorker Batch

structure Item where
  entry : Entry
  content : Bytes

def Item.name (item : Item) : Bytes := cstr item.entry.name

def Item.path (dirPath : Bytes) (item : Item) : Bytes := filePath dirPath item.entry

structure Directory where
  items : List Item
  distinct : (items.map Item.name).Nodup

/-- A file that is put under a name that is taken replaces the one that was there. -/
def Directory.put (d : Directory) (item : Item) : Directory where
  items := item :: d.items.filter fun other => other.name ≠ item.name
  distinct := by
    refine List.nodup_cons.mpr ⟨fun hmem => ?_, d.distinct.sublist (List.filter_sublist.map _)⟩
    obtain ⟨other, hother, hname⟩ := List.mem_map.mp hmem
    exact of_decide_eq_true (List.mem_filter.mp hother).2 hname

def Directory.puts (d : Directory) (items : List Item) : Directory :=
  items.foldl Directory.put d

def Directory.Fresh (d : Directory) : List Item → Prop
  | [] => True
  | item :: items => item.name ∉ d.items.map Item.name ∧ (d.put item).Fresh items

instance decidableFresh : ∀ (items : List Item) (d : Directory), Decidable (d.Fresh items)
  | [], _ => inferInstanceAs (Decidable True)
  | item :: items, d =>
    have := decidableFresh items (d.put item)
    inferInstanceAs (Decidable (_ ∧ _))

/-- A pass lists the entries in any order. -/
structure Scan where
  opens : Bool
  closes : Bool
  order : List Item → List Item
  perm : ∀ items, (order items).Perm items

def Scan.pass (scan : Scan) (d : Directory) : Pass where
  opens := scan.opens
  entries := (scan.order d.items).map Item.entry
  closes := scan.closes
  distinct := by
    have hnames := (((scan.perm d.items).map Item.name).nodup_iff).mpr d.distinct
    rwa [List.map_map]

/-- What one turn finds: memory, how its two passes come out, what others put into the
directory between them, while the workers run and after that, which forks succeed and what
their workers find, and for which files `remove` succeeds. -/
structure Turn where
  room : Room
  counting : Scan
  naming : Scan
  between : List Item
  during : List Item
  behind : List Item
  forks : Forks
  allowed : Bytes → Bool

inductive Outcome where
  | waits
  | turned (removed : List Bytes) (run : Bool)

section Turn
variable (dirPath : Bytes) (isHomeMode : Int) (processesCount pipeDescr : Nat)

def working (d : Directory) (t : Turn) : Directory :=
  (d.puts t.between).puts t.during

def listing (d : Directory) (t : Turn) : Option (Option MailFiles × Nat) :=
  checkDirectory dirPath t.room (t.counting.pass d) (t.naming.pass (d.puts t.between))

/-- What a worker reads under a name; all names that are listed have a file. -/
def contentAt (d : Directory) (file : Bytes) : Bytes :=
  (d.items.find? fun item => item.path dirPath = cstr file).elim [] Item.content

def contents (d : Directory) (t : Turn) (mails : MailFiles) : List Bytes :=
  mails.files.map (contentAt dirPath (working d t))

def remove (allowed : Bytes → Bool) (d : Directory) (file : Bytes) : Directory :=
  if allowed (cstr file) then
    ⟨d.items.filter fun item => item.path dirPath ≠ cstr file,
      d.distinct.sublist (List.filter_sublist.map _)⟩
  else d

/-- The directory behind the removals of a turn. -/
def cleared (d : Directory) (t : Turn) (removed : List Bytes) : Directory :=
  removed.foldl (remove dirPath t.allowed) (working d t)

def mainLoop (d : Directory) (t : Turn) : Option (Outcome × Directory) := do
  let (mails, _) ← listing dirPath d t
  match mainLoopTurn (mails.map (contents dirPath d t)) isHomeMode t.forks processesCount
      pipeDescr with
  | none => some (.waits, working d t)
  | some (done, run) => do
      let removed := done.filterMap fun i => mails.bind fun mails => mails.files[i]?
      -- also after a listing that failed
      clearMailFiles mails
      some (.turned removed run,
        (cleared dirPath d t removed).puts t.behind)

def mainLoopMachine : Machine Directory Turn Outcome where
  step := mainLoop dirPath isHomeMode processesCount pipeDescr
  stop
    | .waits => true
    | .turned _ run => !run

/-- Others only add files in a turn. -/
structure Adds (st : Step Directory Turn Outcome) : Prop where
  between : st.before.Fresh st.input.between
  during : (st.before.puts st.input.between).Fresh st.input.during
  behind : ∀ removed run, st.output = .turned removed run →
    (cleared dirPath st.before st.input removed).Fresh st.input.behind

/-- The turn lists a file, hands what it holds to one worker, has all its workers forked
and ended, and may remove the file. -/
structure Spent (d : Directory) (t : Turn) (item : Item) : Prop where
  regular : item.entry.dType = dtReg
  handed : ∃ mails written i, listing dirPath d t = some (some mails, written) ∧
    mails.files[i]?.map cstr = some (item.path dirPath) ∧
    (contents dirPath d t mails)[i]? = some item.content ∧
    (∃! pack, pack ∈ packsOf (contents dirPath d t mails).length processesCount ∧
      pack.1 ≤ i ∧ i ≤ pack.2) ∧
    ¬ForkFails (contents dirPath d t mails) t.forks processesCount ∧
    ¬Waits (contents dirPath d t mails) isHomeMode t.forks processesCount pipeDescr
  allowed : t.allowed (item.path dirPath) = true

end Turn

section Directories
variable {dirPath : Bytes} {d : Directory} {item item' : Item}

theorem put_fresh (h : item.name ∉ d.items.map Item.name) : (d.put item).items = item :: d.items := by
  refine congrArg (item :: ·) (List.filter_eq_self.mpr fun other hother => decide_eq_true ?_)
  exact fun hname => h (hname ▸ List.mem_map_of_mem hother)

theorem suffix_puts {items : List Item} (h : d.Fresh items) : d.items <:+ (d.puts items).items := by
  induction items generalizing d with
  | nil => exact List.suffix_refl _
  | cons item items ih =>
    have hput : d.items <:+ (d.put item).items := put_fresh h.1 ▸ List.suffix_cons ..
    exact hput.trans (ih h.2)

theorem path_inj (h : filePath dirPath item.entry = item'.path dirPath) : item.name = item'.name := by
  have hrest := List.append_cancel_left h
  exact (List.cons.inj hrest).2

theorem Directory.eq_of_path (hmem : item ∈ d.items) (hmem' : item' ∈ d.items)
    (h : item.path dirPath = item'.path dirPath) : item = item' :=
  List.inj_on_of_nodup_map d.distinct hmem hmem' (path_inj h)

theorem contentAt_eq {file : Bytes} (hmem : item ∈ d.items) (hfile : cstr file = item.path dirPath) :
    contentAt dirPath d file = item.content := by
  unfold contentAt
  cases hfind : d.items.find? fun item => item.path dirPath = cstr file with
  | none =>
    have hnot := List.find?_eq_none.mp hfind item hmem
    simp [hfile] at hnot
  | some found =>
    have hpath : found.path dirPath = cstr file := by simpa using List.find?_some hfind
    rw [d.eq_of_path (List.mem_of_find?_eq_some hfind) hmem (hpath.trans hfile)]
    rfl

theorem mem_removes {allowed : Bytes → Bool} {files : List Bytes} :
    item ∈ (files.foldl (remove dirPath allowed) d).items ↔ item ∈ d.items ∧
      ∀ file ∈ files, allowed (cstr file) = true → item.path dirPath ≠ cstr file := by
  induction files generalizing d with
  | nil => simp
  | cons file files ih =>
    rw [List.foldl_cons, ih, List.forall_mem_cons, ← and_assoc]
    refine and_congr_left fun _ => ?_
    unfold remove
    split
    · rename_i hallowed
      simp [hallowed]
    · rename_i hallowed
      simp [hallowed]

end Directories

section Listing
variable {dirPath : Bytes}

theorem checkDirectory_consistent {room : Room} {counting naming : Pass} {mails : MailFiles}
    {written : Nat}
    (h : checkDirectory dirPath room counting naming = some (some mails, written))
    (hgrows : (regular counting.entries).length ≤ (regular naming.entries).length) :
    Consistent dirPath naming mails written := by
  by_cases hnames : ∃ n, Names room counting naming n
  · obtain ⟨n, hn⟩ := hnames
    have hlt := hn.positive.2
    have hle : n ≤ (regular naming.entries).length := by
      rw [hn.counted]
      exact (Nat.mod_le ..).trans hgrows
    obtain ⟨names, rfl, hsize, heq⟩ := @checkDirectory_names dirPath _ _ _ n hn
    rw [heq] at h
    by_cases hfits : ∀ entry ∈ (regular naming.entries).take names.length, Fits dirPath entry
    · obtain ⟨texts, hwritten, htext⟩ := @writeNames_fits dirPath _ [] names hsize hlt hfits
      simp only [List.nil_append, List.length_nil, Nat.zero_add] at hwritten
      rw [hwritten] at h
      have hcloses : naming.closes = true := by
        by_contra hcloses
        simp [hcloses] at h
      simp only [hcloses, Option.map_some, Bool.true_eq_false, if_false, Option.some.injEq,
        Prod.mk.injEq] at h
      obtain ⟨rfl, rfl⟩ := h
      exact (consistent_iff htext).mpr hle
    · have hover : ∃ entry ∈ (regular naming.entries).take names.length, ¬Fits dirPath entry := by
        simpa using hfits
      have hnone := @writeNames_overflow dirPath _ [] names hsize hlt hover
      simp only [List.nil_append, List.length_nil] at hnone
      simp [hnone] at h
  · have hwell := @checkDirectory_early dirPath room counting naming fun n hn => hnames ⟨n, hn⟩
    rwa [h] at hwell

/-- The listing succeeds: there are no files, or there is room for their names, both passes go
through, and each path fits. -/
def Lists (dirPath : Bytes) (room : Room) (counting naming : Pass) : Prop :=
  (room.result = true ∧ counting.opens = true ∧ counting.closes = true ∧
      (regular counting.entries).length % 2 ^ 32 = 0) ∨
    ∃ n, Names room counting naming n ∧ naming.closes = true ∧
      ∀ entry ∈ (regular naming.entries).take n, Fits dirPath entry

theorem regular_pass_le (scan scan' : Scan) {d d' : Directory} (h : d.items <:+ d'.items) :
    (regular (scan.pass d).entries).length ≤ (regular (scan'.pass d').entries).length := by
  have hlength (scan : Scan) (d : Directory) : (regular (scan.pass d).entries).length =
      (regular (d.items.map Item.entry)).length :=
    (((scan.perm d.items).map Item.entry).filter _).length_eq
  rw [hlength, hlength]
  exact ((h.sublist.map Item.entry).filter _).length_le

theorem listed_item {d : Directory} {t : Turn} {mails : MailFiles} {written : Nat} {file : Bytes}
    (hbetween : d.Fresh t.between) (h : listing dirPath d t = some (some mails, written)) (hfile : file ∈ mails.files) :
    ∃ item ∈ (d.puts t.between).items, item.entry.dType = dtReg ∧ cstr file = item.path dirPath := by
  obtain ⟨-, chosen, -, hpaths, -, hchosen⟩ :=
    checkDirectory_consistent h (regular_pass_le _ _ (suffix_puts hbetween))
  have hmem : cstr file ∈ chosen.map (filePath dirPath) := hpaths ▸ List.mem_map_of_mem hfile
  obtain ⟨entry, hentry, hpath⟩ := List.mem_map.mp hmem
  obtain ⟨hseen, hregular⟩ := hchosen entry hentry
  obtain ⟨item, hitem, rfl⟩ := List.mem_map.mp hseen
  exact ⟨item, (t.naming.perm _).mem_iff.mp hitem, hregular, hpath.symm⟩

end Listing

section Runs
variable {dirPath : Bytes} {isHomeMode : Int} {processesCount pipeDescr : Nat}

theorem mainLoop_keeps {d d' : Directory} {t : Turn} {o : Outcome} {item : Item}
    (hprocesses : 0 < processesCount) (hadds : Adds dirPath ⟨d, t, o, d'⟩)
    (h : mainLoop dirPath isHomeMode processesCount pipeDescr d t = some (o, d'))
    (hmem : item ∈ (working d t).items) :
    item ∈ d'.items ∨ Spent dirPath isHomeMode processesCount pipeDescr d t item := by
  obtain ⟨⟨mails, written⟩, hlisting, h⟩ := Option.bind_eq_some_iff.mp h
  cases mails with
  | none => simp [mainLoopTurn, clearMailFiles] at h
  | some mails =>
  dsimp only [Option.map_some] at h
  split at h
  · obtain ⟨-, rfl⟩ := Prod.mk.inj (Option.some.inj h)
    exact .inl hmem
  rename_i done run hturn
  obtain ⟨rfl, rfl⟩ := Prod.mk.inj (Option.some.inj h)
  have hbehind := hadds.behind _ _ rfl
  dsimp only [Option.bind_some] at hbehind ⊢
  by_cases hstays : item ∈ (cleared dirPath d t (done.filterMap fun i => mails.files[i]?)).items
  · exact .inl ((suffix_puts hbehind).subset hstays)
  · rw [cleared, mem_removes, not_and] at hstays
    have hremoved := hstays hmem
    push Not at hremoved
    obtain ⟨file, hfile, hallowed, hpath⟩ := hremoved
    obtain ⟨i, hi, hget⟩ := List.mem_filterMap.mp hfile
    obtain ⟨hlt, hforks, hends⟩ := (mainLoopTurn_removes (contents dirPath d t mails) isHomeMode
      t.forks processesCount pipeDescr).mp ⟨done, run, hturn, hi⟩
    obtain ⟨found, hfound, hregular, hcstr⟩ :=
      listed_item hadds.between hlisting (List.mem_of_getElem? hget)
    obtain rfl : found = item := (working d t).eq_of_path
      ((suffix_puts hadds.during).subset hfound) hmem (hcstr.symm.trans hpath.symm)
    refine .inr ⟨hregular, ⟨mails, written, i, hlisting, by rw [hget, Option.map_some, hcstr], ?_,
      pack_unique hprocesses hlt, hforks, hends⟩, by rwa [hpath]⟩
    rw [contents, List.getElem?_map, hget, Option.map_some, contentAt_eq hmem hcstr]

/-- A file that was there in a turn of a history and is not there now has been spent since. -/
def Kept (dirPath : Bytes) (isHomeMode : Int) (processesCount pipeDescr : Nat)
    (past : List (Step Directory Turn Outcome)) (d : Directory) : Prop :=
  ∀ done st rest item, past = done ++ st :: rest → item ∈ (working st.before st.input).items →
    item ∈ d.items ∨ ∃ later ∈ st :: rest,
      Spent dirPath isHomeMode processesCount pipeDescr later.before later.input item

theorem Kept.step {past : List (Step Directory Turn Outcome)} {d d' : Directory} {t : Turn}
    {o : Outcome} (hprocesses : 0 < processesCount) (hadds : Adds dirPath ⟨d, t, o, d'⟩)
    (hkept : Kept dirPath isHomeMode processesCount pipeDescr past d)
    (h : mainLoop dirPath isHomeMode processesCount pipeDescr d t = some (o, d')) :
    Kept dirPath isHomeMode processesCount pipeDescr (past ++ [⟨d, t, o, d'⟩]) d' := by
  intro done st rest item hsplit hmem
  rcases List.eq_nil_or_concat' rest with rfl | ⟨before, now, rfl⟩
  · obtain ⟨-, hnow⟩ := List.append_inj' hsplit rfl
    obtain rfl := List.singleton_inj.mp hnow
    refine (mainLoop_keeps hprocesses hadds h hmem).imp_right fun hspent => ?_
    exact ⟨_, List.mem_singleton_self _, hspent⟩
  · rw [← List.cons_append, ← List.append_assoc] at hsplit
    obtain ⟨hpast, hnow⟩ := List.append_inj' hsplit rfl
    obtain rfl := List.singleton_inj.mp hnow
    rcases hkept done st before item hpast hmem with hstays | ⟨later, hlater, hspent⟩
    · have hstays' : item ∈ (working d t).items :=
        ((suffix_puts hadds.between).trans (suffix_puts hadds.during)).subset hstays
      refine (mainLoop_keeps hprocesses hadds h hstays').imp_right fun hspent => ?_
      exact ⟨⟨d, t, o, d'⟩, by simp, hspent⟩
    · exact .inr ⟨later, List.mem_append_left _ hlater, hspent⟩

/-- In every run of the main loop, however the directory grows by files under new names and
whichever forks, workers and removals fail: a file that is there in a turn is there at the end,
or a turn since has listed it, handed it to exactly one worker, seen all its workers end, and
then removed it. -/
theorem mails_kept (dirPath : Bytes) (isHomeMode : Int) (pipeDescr : Nat)
    (hprocesses : 0 < processesCount) {start last : Directory} {turns : List Turn}
    {history done rest : List (Step Directory Turn Outcome)} {st : Step Directory Turn Outcome}
    {item : Item}
    (hexec : (mainLoopMachine dirPath isHomeMode processesCount pipeDescr).exec start turns =
      some (history, last))
    (hadds : ∀ st ∈ history, Adds dirPath st)
    (hsplit : history = done ++ st :: rest) (hmem : item ∈ (working st.before st.input).items) :
    item ∈ last.items ∨ ∃ later ∈ st :: rest,
      Spent dirPath isHomeMode processesCount pipeDescr later.before later.input item := by
  let Inv (past : List (Step Directory Turn Outcome)) (d : Directory) : Prop :=
    (∀ st ∈ past, Adds dirPath st) → Kept dirPath isHomeMode processesCount pipeDescr past d
  have hstep : ∀ past d t o d', Inv past d →
      (mainLoopMachine dirPath isHomeMode processesCount pipeDescr).step d t = some (o, d') →
        Inv (past ++ [⟨d, t, o, d'⟩]) d' := by
    intro past d t o d' hinv h hadds
    obtain ⟨hpast, hnow⟩ := List.forall_mem_append.mp hadds
    exact (hinv hpast).step hprocesses (hnow _ (by simp)) h
  have hinit : Inv [] start := by
    intro _ done st rest item hnil
    simp at hnil
  exact (Machine.exec_steps hstep hinit hexec).1 hadds done st rest item hsplit hmem

/-- A turn for which nothing fails but the workers, which cannot open their files. -/
def blindTurn (arrives : Bytes) : Turn where
  room := plenty
  counting := ⟨true, true, id, .refl⟩
  naming := ⟨true, true, List.reverse, List.reverse_perm⟩
  between := []
  during := [⟨⟨arrives, dtReg⟩, shortMail⟩]
  behind := []
  forks := ⟨fun _ => true, fun _ => blindWorker⟩
  allowed _ := true

def twoMails : Directory where
  items := [⟨⟨ascii "1.txt", dtReg⟩, shortMail⟩, ⟨⟨ascii "2.txt", dtReg⟩, shortMail⟩]
  distinct := by decide

/-- Two turns, in each of which a file arrives while the workers run. The first removes the two
files of the start and the second the one that came in the first. -/
theorem mails_kept_blindTurn : ∃ history last,
    (mainLoopMachine (ascii "mails") 0 2 3).exec twoMails
      [blindTurn (ascii "3.txt"), blindTurn (ascii "4.txt")] = some (history, last) ∧
    last.items.map Item.name = [ascii "4.txt"] ∧
    ∀ done st rest item, history = done ++ st :: rest → item ∈ (working st.before st.input).items →
      item ∈ last.items ∨ ∃ later ∈ st :: rest,
        Spent (ascii "mails") 0 2 3 later.before later.input item := by
  have hrun : ((mainLoopMachine (ascii "mails") 0 2 3).exec twoMails
      [blindTurn (ascii "3.txt"), blindTurn (ascii "4.txt")]).map (fun r =>
        (r.2.items.map Item.name, r.1.all fun st =>
          decide (st.before.Fresh st.input.between ∧
            (st.before.puts st.input.between).Fresh st.input.during ∧ st.input.behind.length = 0))) =
      some ([ascii "4.txt"], true) := by
    decide +kernel
  obtain ⟨⟨history, last⟩, hexec, hfacts⟩ := Option.map_eq_some_iff.mp hrun
  obtain ⟨hlast, hall⟩ := Prod.mk.inj hfacts
  have hadds : ∀ st ∈ history, Adds (ascii "mails") st := by
    intro st hst
    obtain ⟨hbetween, hduring, hbehind⟩ := of_decide_eq_true (List.all_eq_true.mp hall st hst)
    refine ⟨hbetween, hduring, fun removed run _ => ?_⟩
    rw [List.length_eq_zero_iff.mp hbehind]
    trivial
  exact ⟨history, last, hexec, hlast, fun done st rest item hsplit hmem =>
    mails_kept (ascii "mails") 0 3 Nat.two_pos hexec hadds hsplit hmem⟩

/-- A file that is put under the name of a listed one while the workers run is removed
though no worker has seen it. -/
example : ((mainLoopMachine (ascii "mails") 0 1 3).exec twoMails [blindTurn (ascii "1.txt")]).map
    (fun r => r.2.items.map Item.name) = some [] := by
  decide +kernel

end Runs

end SmtpMta.Client.DirectoryTurns
