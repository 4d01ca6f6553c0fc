import SmtpMta.Client.Batch
import Mathlib.Data.List.Chain

/-! The loop of `batch_files_for_processes` on machine integers. A result of
`none` is an overflow, or a loop that is not over after the given turns. -/
namespace SmtpMta.Client.Packs
open Batch

/-- The sum of two `int`s, as long as it is one. -/
def addInt (a b : Int) : Option Int :=
  if -2 ^ 31 ≤ a + b ∧ a + b < 2 ^ 31 then some (a + b) else none

/-- A forked worker: its place in `pids`, and the indices it is handed. -/
structure Handed where
  ind : Int
  startInd : Int
  endInd : Int
deriving DecidableEq

/-- The last index of the pack that starts at an index. -/
def packEnd (mailsCount pack start : Int) : Option Int := do
  let sum ← addInt start pack
  if mailsCount ≤ sum then addInt mailsCount (-1) else addInt sum (-1)

/-- The `while` loop; it ends with -1 at a fork that fails. -/
def batchLoop (forks : Nat → Bool) (mailsCount pack : Int) :
    Nat → Int → Int → Option (List Handed × Int)
  | 0, _, _ => none
  | bound + 1, fin, ind =>
    if fin < mailsCount then do
      let start := fin
      let fin ← packEnd mailsCount pack start
      if forks ind.toNat then
        let next ← addInt ind 1
        let (handed, ret) ← batchLoop forks mailsCount pack bound (← addInt fin 1) next
        some (⟨ind, start, fin⟩ :: handed, ret)
      else some ([], -1)
    else some ([], 0)

def batchFiles (forks : Nat → Bool) (mailsCount processesCount : Int) (bound : Nat) :
    Option (List Handed × Int) := do
  let pack := mailsCount.tdiv processesCount
  let pack ← if mailsCount.tmod processesCount ≠ 0 then addInt pack 1 else some pack
  batchLoop forks mailsCount pack bound 0 0

def packSize (mailsCount processesCount : Nat) : Nat :=
  if mailsCount % processesCount ≠ 0 then mailsCount / processesCount + 1
  else mailsCount / processesCount

/-- Ranges without a gap from one index up to another, numbered one by one. -/
inductive Tiles : Int → Int → List Handed → Int → Prop where
  | nil {start ind : Int} : Tiles start ind [] start
  | cons {start ind stop : Int} {h : Handed} {rest : List Handed} : h.startInd = start →
      h.ind = ind → h.startInd ≤ h.endInd → Tiles (h.endInd + 1) (h.ind + 1) rest stop →
      Tiles start ind (h :: rest) stop

section Tiling
variable {start ind stop : Int} {handed : List Handed}

theorem Tiles.le (h : Tiles start ind handed stop) : start ≤ stop := by
  induction h with
  | nil => exact Int.le_refl _
  | cons hstart _ hne _ ih => omega

theorem Tiles.bounds (h : Tiles start ind handed stop) {r : Handed} (hr : r ∈ handed) :
    start ≤ r.startInd ∧ r.startInd ≤ r.endInd ∧ r.endInd < stop ∧
      ind ≤ r.ind ∧ r.ind < ind + handed.length := by
  induction h with
  | nil => simp at hr
  | cons hstart hind hne hrest ih =>
    have hle := hrest.le
    rw [List.length_cons]
    rcases List.mem_cons.mp hr with rfl | hr
    · omega
    · have := ih hr
      omega

theorem Tiles.pairwise (h : Tiles start ind handed stop) :
    handed.Pairwise fun a b => a.endInd < b.startInd ∧ a.ind < b.ind := by
  induction h with
  | nil => exact .nil
  | cons _ _ _ hrest ih =>
    refine List.pairwise_cons.mpr ⟨fun r hr => ?_, ih⟩
    have := hrest.bounds hr
    omega

theorem Tiles.head (h : Tiles start ind handed stop) :
    ∀ r ∈ handed.head?, r.startInd = start ∧ r.ind = ind := by
  cases h with
  | nil => simp
  | cons hstart hind => simpa using ⟨hstart, hind⟩

theorem Tiles.consecutive (h : Tiles start ind handed stop) :
    handed.IsChain fun a b => b.startInd = a.endInd + 1 ∧ b.ind = a.ind + 1 := by
  induction h with
  | nil => exact .nil
  | cons _ _ _ hrest ih =>
    rw [List.isChain_cons]
    exact ⟨hrest.head, ih⟩

theorem Tiles.covers (h : Tiles start ind handed stop) (i : Int) :
    (∃ r ∈ handed, r.startInd ≤ i ∧ i ≤ r.endInd) ↔ start ≤ i ∧ i < stop := by
  constructor
  · rintro ⟨r, hr, hleft, hright⟩
    have := h.bounds hr
    omega
  · intro hi
    induction h with
    | nil => omega
    | @cons _ _ _ r rest hstart _ hne hrest ih =>
      by_cases hmine : i ≤ r.endInd
      · exact ⟨r, by simp, by omega, hmine⟩
      · obtain ⟨other, hmem, hother⟩ := ih ⟨by omega, hi.2⟩
        exact ⟨other, by simp [hmem], hother⟩

theorem Tiles.of_prefix {first : List Handed} (h : Tiles start ind handed stop)
    (hfirst : first <+: handed) : ∃ stop' ≤ stop, Tiles start ind first stop' := by
  induction h generalizing first with
  | nil =>
    obtain rfl := List.prefix_nil.mp hfirst
    exact ⟨_, Int.le_refl _, .nil⟩
  | cons hstart hind hne hnext ih =>
    cases first with
    | nil => exact ⟨_, (Tiles.cons hstart hind hne hnext).le, .nil⟩
    | cons r first =>
      obtain ⟨rfl, hrest⟩ := List.cons_prefix_cons.mp hfirst
      obtain ⟨stop', hstop, htiles⟩ := ih hrest
      exact ⟨stop', hstop, .cons hstart hind hne htiles⟩

end Tiling

/-- A range of the loop without machine integers, with the number of its turn. -/
def toHanded (range : (Nat × Nat) × Nat) : Handed :=
  ⟨range.2, range.1.1, range.1.2⟩

section Loop
variable {forks : Nat → Bool} {n pack : Nat}

theorem addInt_eq {a b sum : Int} (hsum : a + b = sum) (hleft : -2 ^ 31 ≤ sum)
    (hright : sum < 2 ^ 31) : addInt a b = some sum := by
  subst hsum
  exact if_pos ⟨hleft, hright⟩

theorem packEnd_eq {start : Nat} (hpack : 0 < pack) (hint : n + pack < 2 ^ 31)
    (hstart : start < n) :
    ∃ last : Nat, packEnd n pack start = some (last : Int) ∧ start ≤ last ∧ last < n ∧
      (if start + pack ≥ n then n - 1 else start + pack - 1) = last := by
  have hsum : addInt start pack = some ((start + pack : Nat) : Int) :=
    addInt_eq (by omega) (by omega) (by omega)
  simp only [packEnd, hsum, Option.bind_eq_bind, Option.bind_some]
  by_cases hrest : n ≤ start + pack
  · refine ⟨n - 1, ?_, by omega, by omega, if_pos hrest⟩
    rw [if_pos (by omega)]
    exact addInt_eq (by omega) (by omega) (by omega)
  · refine ⟨start + pack - 1, ?_, by omega, by omega, if_neg hrest⟩
    rw [if_neg (by omega)]
    exact addInt_eq (by omega) (by omega) (by omega)

/-- While no sum is too large the loop hands out the packs, up to the first fork
that fails. -/
theorem batchLoop_eq (hpack : 0 < pack) (hint : n + pack < 2 ^ 31) {bound start ind : Nat}
    (hbound : n - start < bound) (hind : ind ≤ start) :
    ∃ ret, batchLoop forks n pack bound start ind =
        some ((((packs n pack bound start).zipIdx ind).takeWhile fun r => forks r.2).map toHanded, ret) ∧
      ((∀ r ∈ (packs n pack bound start).zipIdx ind, forks r.2 = true) → ret = 0) := by
  induction bound generalizing start ind with
  | zero => omega
  | succ bound ih =>
    rw [batchLoop, packs]
    by_cases hstart : start < n
    · have hfin : (start : Int) < n := by omega
      obtain ⟨last, hend, hle, hlast, hpacks⟩ := packEnd_eq hpack hint hstart
      have hnext : addInt ind 1 = some ((ind + 1 : Nat) : Int) :=
        addInt_eq (by omega) (by omega) (by omega)
      have hgo : addInt last 1 = some ((last + 1 : Nat) : Int) :=
        addInt_eq (by omega) (by omega) (by omega)
      simp only [if_pos hfin, if_pos hstart, hend, Option.bind_eq_bind, Option.bind_some, hpacks,
        Int.toNat_natCast, List.zipIdx_cons, List.takeWhile_cons]
      cases hfork : forks ind with
      | false =>
        refine ⟨-1, rfl, fun hall => ?_⟩
        have hhead : forks ind = true := hall ((start, last), ind) List.mem_cons_self
        simp [hfork] at hhead
      | true =>
        obtain ⟨ret, hloop, hret⟩ := @ih (last + 1) (ind + 1) (by omega) (by omega)
        refine ⟨ret, ?_, fun hall => hret fun r hr => hall r (List.mem_cons_of_mem _ hr)⟩
        simp only [if_true, hnext, hgo, hloop, Option.bind_some, List.map_cons]
        rfl
    · have hfin : ¬(start : Int) < n := by omega
      exact ⟨0, by simp [hfin, hstart], fun _ => rfl⟩

theorem packs_tiles (hpack : 0 < pack) {bound start : Nat} (hstart : start ≤ n)
    (hbound : n - start ≤ bound) (ind : Nat) :
    Tiles start ind (((packs n pack bound start).zipIdx ind).map toHanded) n := by
  induction bound generalizing start ind with
  | zero =>
    obtain rfl : start = n := by omega
    exact .nil
  | succ bound ih =>
    rw [packs]
    by_cases hlt : start < n
    · obtain ⟨last, hlast, hle, hless⟩ : ∃ last,
          (if start + pack ≥ n then n - 1 else start + pack - 1) = last ∧ start ≤ last ∧ last < n := by
        refine ⟨_, rfl, ?_⟩
        split <;> omega
      simp only [if_pos hlt, hlast, List.zipIdx_cons, List.map_cons]
      have hrest := @ih (last + 1) (by omega) (by omega) (ind + 1)
      refine .cons rfl rfl (by simpa [toHanded] using hle) ?_
      simpa [toHanded] using hrest
    · obtain rfl : start = n := by omega
      simpa using Tiles.nil

end Loop

theorem packSize_pos {n p : Nat} (hn : 0 < n) (hp : 0 < p) : 0 < packSize n p := by
  unfold packSize
  split
  · exact Nat.succ_pos _
  · rename_i hmod
    exact Nat.div_pos (Nat.le_of_dvd hn (Nat.dvd_of_mod_eq_zero (not_not.mp hmod))) hp

theorem batchFiles_eq {forks : Nat → Bool} {n p : Nat} (hint : n + packSize n p < 2 ^ 31) :
    batchFiles forks n p (n + 1) = batchLoop forks n (packSize n p) (n + 1) 0 0 := by
  have hmod : ((n : Int).tmod p ≠ 0) ↔ n % p ≠ 0 := by
    rw [← Int.ofNat_tmod]
    omega
  unfold batchFiles packSize at *
  simp only [← Int.ofNat_tdiv, hmod]
  split
  · rename_i hrest
    rw [if_pos hrest] at hint
    generalize n / p = share at hint ⊢
    rw [@addInt_eq _ _ ((share + 1 : Nat) : Int) (by omega) (by omega) (by omega)]
    rfl
  · rfl

theorem packsOf_eq (n p : Nat) : packsOf n p = packs n (packSize n p) n 0 := rfl

theorem packs_bound {n pack bound start : Nat} (hpack : 0 < pack) (hbound : n - start ≤ bound) :
    packs n pack (bound + 1) start = packs n pack bound start := by
  induction bound generalizing start with
  | zero =>
    have hdone : ¬start < n := by omega
    simp [packs, hdone]
  | succ bound ih =>
    rw [packs, packs]
    split
    · dsimp only
      rw [ih]
      split <;> omega
    · rfl

/-- The loop ends, whatever forks succeed; the ranges it hands out follow each
other from the first mail on, each mail is in at most one of them, and there is
a place in `pids` for each. Without a failed fork they cover all mails. -/
theorem batching_partition {n p : Nat} (hp : 0 < p) (hint : n + packSize n p < 2 ^ 31)
    (forks : Nat → Bool) :
    ∃ handed ret, batchFiles forks n p (n + 1) = some (handed, ret) ∧
      (∀ r ∈ handed, 0 ≤ r.ind ∧ r.ind < p ∧ 0 ≤ r.startInd ∧ r.startInd ≤ r.endInd ∧ r.endInd < n) ∧
      (∀ r ∈ handed.head?, r.startInd = 0 ∧ r.ind = 0) ∧
      handed.IsChain (fun a b => b.startInd = a.endInd + 1 ∧ b.ind = a.ind + 1) ∧
      handed.Pairwise (fun a b => a.endInd < b.startInd ∧ a.ind < b.ind) ∧
      handed.length ≤ p ∧
      ((∀ ind < p, forks ind = true) → ret = 0 ∧
        ∀ i : Int, (∃ r ∈ handed, r.startInd ≤ i ∧ i ≤ r.endInd) ↔ 0 ≤ i ∧ i < n) := by
  have hpack := @batchFiles_eq forks n p hint
  rcases Nat.eq_zero_or_pos n with rfl | hn
  · refine ⟨[], 0, ?_, by simp, by simp, .nil, .nil, by simp, fun _ => ⟨rfl, fun i => ?_⟩⟩
    · rw [hpack]
      rfl
    · simp
  have hpos := packSize_pos hn hp
  obtain ⟨ret, hloop, hret⟩ := @batchLoop_eq forks n (packSize n p) hpos hint (n + 1) 0 0 (by omega) le_rfl
  rw [packs_bound hpos (by omega), ← packsOf_eq] at hloop hret
  have hcount := (packsOf_partition n hp).2
  have htiles : Tiles 0 0 (((packsOf n p).zipIdx 0).map toHanded) n := by
    have hpacks := packs_tiles hpos (Nat.zero_le n) (Nat.le_refl _) 0
    simpa [packsOf_eq] using hpacks
  obtain ⟨stop, hstop, hfirst⟩ := htiles.of_prefix ((List.takeWhile_prefix fun r => forks r.2).map toHanded)
  have hlength : ((((packsOf n p).zipIdx 0).takeWhile fun r => forks r.2).map toHanded).length ≤ p := by
    have hle := (List.takeWhile_prefix (l := (packsOf n p).zipIdx 0) fun r => forks r.2).length_le
    rw [List.length_zipIdx] at hle
    rw [List.length_map]
    omega
  refine ⟨_, ret, hpack.trans hloop, fun r hr => ?_, hfirst.head, hfirst.consecutive,
    hfirst.pairwise, hlength, fun hall => ?_⟩
  · have := hfirst.bounds hr
    omega
  · have hforks : ∀ r ∈ (packsOf n p).zipIdx 0, forks r.2 = true := by
      intro r hr
      have hlt := (List.mem_zipIdx hr).2.1
      exact hall r.2 (by omega)
    refine ⟨hret hforks, fun i => ?_⟩
    rw [List.takeWhile_eq_self_iff.mpr hforks]
    exact htiles.covers i

theorem batching_partition_seven : ∃ handed ret, batchFiles (fun _ => true) 7 3 8 = some (handed, ret) ∧
    handed.length ≤ 3 ∧ ∀ i : Int, (∃ r ∈ handed, r.startInd ≤ i ∧ i ≤ r.endInd) ↔ 0 ≤ i ∧ i < 7 := by
  obtain ⟨handed, ret, hrun, -, -, -, -, hlength, hall⟩ :=
    @batching_partition 7 3 (by decide) (by decide) fun _ => true
  exact ⟨handed, ret, hrun, hlength, (hall fun _ _ => rfl).2⟩

/-- The last pack is short. -/
example : batchFiles (fun _ => true) 7 3 8 = some ([⟨0, 0, 2⟩, ⟨1, 3, 5⟩, ⟨2, 6, 6⟩], 0) := by
  decide

end SmtpMta.Client.Packs
