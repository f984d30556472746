/-
# Dictionaries in the order of insertion

A dictionary holds one value for each of its keys. A key that is set again keeps its place, and
a new one comes behind the others. What was set last is what is found (`get?_ofRows`), and values
that are pushed under their keys are found in the order in which they came (`mem_items_groups`).
-/

import Mathlib.Data.List.Induction
import Mathlib.Data.List.Nodup

namespace PerfHound.Lib

universe uκ uν

/-- The items of a dictionary, with different keys. -/
structure Dict (κ : Type uκ) (ν : Type uν) where
  items : List (κ × ν)
  nodup : (items.map Prod.fst).Nodup

namespace Dict

variable {κ : Type uκ} {ν : Type uν} [DecidableEq κ]

def empty : Dict κ ν := ⟨[], List.nodup_nil⟩

/-- The items once a key is set. -/
def setItems (items : List (κ × ν)) (k : κ) (v : ν) : List (κ × ν) :=
  if k ∈ items.map Prod.fst then items.map fun item => if item.1 = k then (k, v) else item
  else items ++ [(k, v)]

theorem map_fst_setItems (items : List (κ × ν)) (k : κ) (v : ν) :
    (setItems items k v).map Prod.fst =
      if k ∈ items.map Prod.fst then items.map Prod.fst else items.map Prod.fst ++ [k] := by
  rw [setItems]
  split
  · rw [List.map_map]
    apply List.map_congr_left
    intro item _
    by_cases hk : item.1 = k
    · simp [hk]
    · simp [hk]
  · rw [List.map_append, List.map_singleton]

theorem nodup_setItems {items : List (κ × ν)} (h : (items.map Prod.fst).Nodup) (k : κ) (v : ν) :
    ((setItems items k v).map Prod.fst).Nodup := by
  rw [map_fst_setItems]
  split
  next => exact h
  next hk => exact List.nodup_append'.mpr ⟨h, List.nodup_singleton k, by simpa using hk⟩

theorem mem_setItems {items : List (κ × ν)} {k k' : κ} {v v' : ν} :
    (k', v') ∈ setItems items k v ↔ k' = k ∧ v' = v ∨ k' ≠ k ∧ (k', v') ∈ items := by
  rw [setItems]
  split
  next hk =>
    simp only [List.mem_map]
    refine ⟨?_, ?_⟩
    · rintro ⟨item, hitem, heq⟩
      by_cases hkey : item.1 = k
      · rw [if_pos hkey] at heq
        exact Or.inl (Prod.mk.inj heq.symm)
      · rw [if_neg hkey] at heq
        subst heq
        exact Or.inr ⟨hkey, hitem⟩
    · rintro (⟨rfl, rfl⟩ | ⟨hkey, hitem⟩)
      · obtain ⟨item, hitem, hfst⟩ := List.mem_map.mp hk
        exact ⟨item, hitem, if_pos hfst⟩
      · exact ⟨(k', v'), hitem, if_neg hkey⟩
  next hk =>
    have hnew : ∀ v, (k, v) ∉ items := fun v hmem => hk (List.mem_map.mpr ⟨_, hmem, rfl⟩)
    simp only [List.mem_append, List.mem_singleton, Prod.mk.injEq]
    by_cases hkey : k' = k
    · subst hkey
      simp [hnew]
    · simp [hkey]

def set (d : Dict κ ν) (k : κ) (v : ν) : Dict κ ν :=
  ⟨setItems d.items k v, nodup_setItems d.nodup k v⟩

def get? (d : Dict κ ν) (k : κ) : Option ν := (d.items.find? fun item => item.1 = k).map Prod.snd

theorem get?_eq_some_iff {d : Dict κ ν} {k : κ} {v : ν} :
    d.get? k = some v ↔ (k, v) ∈ d.items := by
  rw [get?, Option.map_eq_some_iff]
  refine ⟨?_, fun hmem => ?_⟩
  · rintro ⟨item, hfind, rfl⟩
    obtain rfl : item.1 = k := by simpa using List.find?_some hfind
    exact List.mem_of_find?_eq_some hfind
  · have hsome : (d.items.find? fun item => item.1 = k).isSome :=
      List.find?_isSome.mpr ⟨(k, v), hmem, by simp⟩
    obtain ⟨item, hfind⟩ := Option.isSome_iff_exists.mp hsome
    have hkey : item.1 = k := by simpa using List.find?_some hfind
    -- two items with one key are the same
    have hsame : item = (k, v) :=
      List.inj_on_of_nodup_map d.nodup (List.mem_of_find?_eq_some hfind) hmem hkey
    exact ⟨item, hfind, by rw [hsame]⟩

theorem get?_set (d : Dict κ ν) (k k' : κ) (v : ν) :
    (d.set k v).get? k' = if k' = k then some v else d.get? k' := by
  apply Option.ext
  intro v'
  rw [get?_eq_some_iff, set, mem_setItems, ← get?_eq_some_iff]
  by_cases hk : k' = k
  · simp [hk, eq_comm]
  · simp [hk]

/-! ## Dictionaries from lists -/

/-- The items set one after the other. -/
def ofRows (rows : List (κ × ν)) : Dict κ ν := rows.foldl (fun d row => d.set row.1 row.2) empty

theorem ofRows_concat (rows : List (κ × ν)) (row : κ × ν) :
    ofRows (rows ++ [row]) = (ofRows rows).set row.1 row.2 := by
  rw [ofRows, List.foldl_concat]
  rfl

/-- The last value of a key. -/
theorem get?_ofRows (rows : List (κ × ν)) (k : κ) :
    (ofRows rows).get? k = (rows.reverse.find? fun row => row.1 = k).map Prod.snd := by
  induction rows using List.reverseRecOn with
  | nil => rfl
  | append_singleton rows row ih =>
      rw [ofRows_concat, get?_set, List.reverse_concat, List.find?_cons]
      by_cases hk : k = row.1
      · simp [hk]
      · simp [hk, Ne.symm hk, ih]

/-- The values pushed one after the other, `d[k].append(v)` of a `defaultdict(list)`. -/
def groups (rows : List (κ × ν)) : Dict κ (List ν) :=
  rows.foldl (fun d row => d.set row.1 ((d.get? row.1).getD [] ++ [row.2])) empty

theorem groups_concat (rows : List (κ × ν)) (row : κ × ν) :
    groups (rows ++ [row]) =
      (groups rows).set row.1 (((groups rows).get? row.1).getD [] ++ [row.2]) := by
  rw [groups, List.foldl_concat]
  rfl

/-- The values of a key. -/
def valuesOf (rows : List (κ × ν)) (k : κ) : List ν :=
  (rows.filter fun row => row.1 = k).map Prod.snd

theorem mem_valuesOf {rows : List (κ × ν)} {k : κ} {v : ν} :
    v ∈ valuesOf rows k ↔ (k, v) ∈ rows := by
  simp [valuesOf]

theorem get?_groups (rows : List (κ × ν)) (k : κ) :
    (groups rows).get? k = if valuesOf rows k = [] then none else some (valuesOf rows k) := by
  induction rows using List.reverseRecOn with
  | nil => rfl
  | append_singleton rows row ih =>
      rw [groups_concat, get?_set]
      by_cases hk : k = row.1
      · subst hk
        have hvalues : valuesOf (rows ++ [row]) row.1 = valuesOf rows row.1 ++ [row.2] := by
          simp [valuesOf]
        have hne : valuesOf rows row.1 ++ [row.2] ≠ [] := List.append_ne_nil_of_right_ne_nil _ nofun
        rw [if_pos rfl, hvalues, if_neg hne, ih]
        split
        next hnil => rw [hnil]; rfl
        next => rfl
      · have hvalues : valuesOf (rows ++ [row]) k = valuesOf rows k := by
          simp [valuesOf, Ne.symm hk]
        rw [if_neg hk, ih, hvalues]

/-- **Groups.** There is a group for each key, with its values in order. -/
theorem mem_items_groups {rows : List (κ × ν)} {k : κ} {vs : List ν} :
    (k, vs) ∈ (groups rows).items ↔ vs = valuesOf rows k ∧ vs ≠ [] := by
  rw [← get?_eq_some_iff, get?_groups]
  split
  next hnil => simp [hnil]
  next hne =>
    rw [Option.some.injEq]
    refine ⟨?_, fun h => h.1.symm⟩
    rintro rfl
    exact ⟨rfl, hne⟩

end Dict

end PerfHound.Lib
