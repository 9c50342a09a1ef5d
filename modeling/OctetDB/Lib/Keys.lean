import Mathlib

/-!
# Keys and values of a map

The number of keys of a map that have a property, and how an insertion or a deletion changes it.
-/

namespace OctetDB

open Std

variable {α β : Type} {cmp : α → α → Ordering} [Std.TransCmp cmp] [LawfulEqCmp cmp]

def countKeys (p : α → Bool) (m : ExtTreeMap α β cmp) : Nat := m.keys.countP p

section Count

variable {m : ExtTreeMap α β cmp}

theorem countKeys_insert (p : α → Bool) (k : α) (v : β) : countKeys p (m.insert k v) =
    countKeys p m + if k ∉ m ∧ p k = true then 1 else 0 := by
  unfold countKeys
  by_cases present : k ∈ m
  · have same : (m.insert k v).keys.Perm m.keys := by
      rw [List.perm_ext_iff_of_nodup ExtTreeMap.nodup_keys ExtTreeMap.nodup_keys]
      intro a
      simp only [ExtTreeMap.mem_keys, ExtTreeMap.mem_insert,
        LawfulEqCmp.compare_eq_iff_eq]
      constructor
      · rintro (rfl | mem)
        · exact present
        · exact mem
      · exact .inr
    rw [same.countP_eq, if_neg (by tauto), Nat.add_zero]
  · have new : (m.insert k v).keys.Perm (k :: m.keys) := by
      rw [List.perm_ext_iff_of_nodup ExtTreeMap.nodup_keys
        (List.nodup_cons.mpr ⟨by simpa, ExtTreeMap.nodup_keys⟩)]
      intro a
      rw [ExtTreeMap.mem_keys, ExtTreeMap.mem_insert, List.mem_cons,
        ExtTreeMap.mem_keys, LawfulEqCmp.compare_eq_iff_eq, eq_comm]
    rw [new.countP_eq, List.countP_cons]
    by_cases holds : p k = true <;> simp [holds, present]

theorem countKeys_erase (p : α → Bool) (k : α) :
    countKeys p (m.erase k) + (if k ∈ m ∧ p k = true then 1 else 0) = countKeys p m := by
  unfold countKeys
  by_cases present : k ∈ m
  · have old : m.keys.Perm (k :: (m.erase k).keys) := by
      rw [List.perm_ext_iff_of_nodup ExtTreeMap.nodup_keys
        (List.nodup_cons.mpr ⟨by simp, ExtTreeMap.nodup_keys⟩)]
      intro a
      by_cases same : a = k
      · simp [same, present]
      · simp [same, Ne.symm same]
    rw [old.countP_eq, List.countP_cons]
    by_cases holds : p k = true <;> simp [holds, present]
  · have same : (m.erase k).keys.Perm m.keys := by
      rw [List.perm_ext_iff_of_nodup ExtTreeMap.nodup_keys ExtTreeMap.nodup_keys]
      intro a
      simp only [ExtTreeMap.mem_keys, ExtTreeMap.mem_erase, ne_eq]
      refine ⟨And.right, fun mem => ⟨?_, mem⟩⟩
      intro eq
      rw [LawfulEqCmp.eq_of_compare eq] at present
      exact present mem
    rw [same.countP_eq, if_neg (by tauto), Nat.add_zero]

end Count

omit [LawfulEqCmp cmp] in
theorem values_eq_map_toList (m : ExtTreeMap α β cmp) : m.values = m.toList.map Prod.snd := by
  have fold : m.values = m.foldr (fun _ v l => v :: l) [] := by
    rcases m with ⟨⟨m⟩⟩
    induction m using Quotient.ind with
    | _ m => rfl
  rw [fold, ExtTreeMap.foldr_eq_foldr_toList]
  induction m.toList with
  | nil => rfl
  | cons entry entries ih => simp [ih]

end OctetDB
