import Mathlib.Data.List.AList

/-! Finite maps that can bind a key to no value: the values of a map, and what
an insertion does to them. -/
namespace SmtpMta.Library.FiniteMap

abbrev Bindings (κ α : Type) := AList fun _ : κ => Option α

variable {κ α : Type}

def values (t : Bindings κ α) : List α :=
  t.entries.filterMap Sigma.snd

@[simp] theorem values_empty : values (∅ : Bindings κ α) = [] := rfl

variable [DecidableEq κ]

def valueAt (t : Bindings κ α) (key : κ) : Option α :=
  (t.lookup key).join

@[simp] theorem valueAt_empty (key : κ) : valueAt (∅ : Bindings κ α) key = none := by
  simp [valueAt]

@[simp] theorem valueAt_insert_self (t : Bindings κ α) (key : κ) (value : Option α) :
    valueAt (t.insert key value) key = value := by
  simp [valueAt]

theorem valueAt_insert_ne (t : Bindings κ α) {key key' : κ} (h : key' ≠ key) (value : Option α) :
    valueAt (t.insert key value) key' = valueAt t key' := by
  simp [valueAt, AList.lookup_insert_ne h]

theorem valueAt_insert_eq_some {t : Bindings κ α} {key key' : κ} {value : Option α} {v : α} :
    valueAt (t.insert key value) key' = some v ↔
      key' = key ∧ value = some v ∨ key' ≠ key ∧ valueAt t key' = some v := by
  by_cases h : key' = key
  · subst h
    simp
  · simp [h, valueAt_insert_ne t h]

/-- The values are that of a key and those of the other keys. -/
theorem values_perm (t : Bindings κ α) (key : κ) :
    (values t).Perm ((valueAt t key).toList ++ (List.kerase key t.entries).filterMap Sigma.snd) := by
  by_cases h : key ∈ t
  · obtain ⟨value, before, after, -, hentries, herase⟩ := List.exists_of_kerase (AList.mem_keys.mp h)
    have hlookup : t.lookup key = some value :=
      AList.mem_lookup_iff.mpr (by rw [hentries]; simp)
    rw [values, valueAt, hlookup, herase, hentries]
    cases value with
    | none => simp
    | some value => simp
  · have hlookup : t.lookup key = none := AList.lookup_eq_none.mpr h
    rw [valueAt, hlookup, List.kerase_of_notMem_keys h]
    rfl

theorem mem_values {t : Bindings κ α} {key : κ} {value : α} (h : valueAt t key = some value) :
    value ∈ values t := by
  rw [(values_perm t key).mem_iff, h]
  simp

/-- An insertion takes the place of the old value of the key. -/
theorem values_insert (t : Bindings κ α) (key : κ) (value : Option α) :
    ((valueAt t key).toList ++ values (t.insert key value)).Perm (value.toList ++ values t) := by
  have hinsert : values (t.insert key value) =
      value.toList ++ (List.kerase key t.entries).filterMap Sigma.snd := by
    cases value <;> simp [values]
  have hsplit := (values_perm t key).append_left value.toList
  rw [hinsert]
  refine List.Perm.trans ?_ hsplit.symm
  rw [← List.append_assoc, ← List.append_assoc]
  exact List.perm_append_comm.append_right _

end SmtpMta.Library.FiniteMap
