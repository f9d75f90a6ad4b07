import Mathlib

/-!
# Ordered maps, one entry at a time

`put m k v` makes `v` the entry of `m` at `k`, where no value means no entry: inserting, replacing
and erasing are all of this form, so code that only touches one key is a function on entries
followed by a `put`. `eraseWhere` is the loop that visits every entry and erases some of them.
-/

namespace EntryMap

variable {α β : Type} {cmp : α → α → Ordering} [Std.TransCmp cmp] [Std.LawfulEqCmp cmp]
  [DecidableEq α]

open Std (ExtTreeMap)

/-- The map with the entry at `k` replaced. -/
def put (m : ExtTreeMap α β cmp) (k : α) (v : Option β) : ExtTreeMap α β cmp :=
  m.alter k fun _ => v

theorem getElem?_put (m : ExtTreeMap α β cmp) (k k' : α) (v : Option β) :
    (put m k v)[k']? = if k = k' then v else m[k']? := by
  rw [put, ExtTreeMap.getElem?_alter]
  exact if_congr Std.LawfulEqCmp.compare_eq_iff_eq rfl rfl

@[simp] theorem getElem?_put_self (m : ExtTreeMap α β cmp) (k : α) (v : Option β) :
    (put m k v)[k]? = v := by
  rw [getElem?_put, if_pos rfl]

theorem getElem?_put_of_ne (m : ExtTreeMap α β cmp) {k k' : α} (h : k ≠ k') (v : Option β) :
    (put m k v)[k']? = m[k']? := by
  rw [getElem?_put, if_neg h]

theorem insert_eq_put (m : ExtTreeMap α β cmp) (k : α) (v : β) :
    m.insert k v = put m k (some v) := by
  refine ExtTreeMap.ext_getElem? fun k' => ?_
  rw [getElem?_put, ExtTreeMap.getElem?_insert]
  exact if_congr Std.LawfulEqCmp.compare_eq_iff_eq rfl rfl

theorem erase_eq_put (m : ExtTreeMap α β cmp) (k : α) : m.erase k = put m k none := by
  refine ExtTreeMap.ext_getElem? fun k' => ?_
  rw [getElem?_put, ExtTreeMap.getElem?_erase]
  exact if_congr Std.LawfulEqCmp.compare_eq_iff_eq rfl rfl

@[simp] theorem put_put (m : ExtTreeMap α β cmp) (k : α) (v w : Option β) :
    put (put m k v) k w = put m k w := by
  refine ExtTreeMap.ext_getElem? fun k' => ?_
  rw [getElem?_put, getElem?_put, getElem?_put]
  split_ifs <;> rfl

@[simp] theorem put_getElem? (m : ExtTreeMap α β cmp) (k : α) : put m k m[k]? = m := by
  refine ExtTreeMap.ext_getElem? fun k' => ?_
  rw [getElem?_put]
  split_ifs with h
  · rw [h]
  · rfl

/-- Visit the entries in order and erase those that `p` selects. -/
def eraseWhere (p : α → β → Bool) (m : ExtTreeMap α β cmp) : ExtTreeMap α β cmp :=
  m.toList.foldl (fun m it => if p it.1 it.2 then m.erase it.1 else m) m

open scoped Classical in
/-- Erasing along a list of entries removes the keys that are selected somewhere in it. -/
theorem getElem?_foldl_erase (p : α → β → Bool) (k : α) (l : List (α × β)) :
    ∀ m : ExtTreeMap α β cmp,
      (l.foldl (fun m it => if p it.1 it.2 then m.erase it.1 else m) m)[k]? =
        if ∃ v, (k, v) ∈ l ∧ p k v = true then none else m[k]? := by
  induction l with
  | nil => intro m; simp
  | cons it l ih =>
    obtain ⟨k', v'⟩ := it
    intro m
    rw [List.foldl_cons, ih]
    by_cases hl : ∃ v, (k, v) ∈ l ∧ p k v = true
    · obtain ⟨v, hv, hp⟩ := hl
      rw [if_pos ⟨v, hv, hp⟩, if_pos ⟨v, List.mem_cons_of_mem _ hv, hp⟩]
    · rw [if_neg hl]
      by_cases hk : k' = k
      · subst hk
        by_cases hp : p k' v' = true
        · rw [if_pos hp, if_pos ⟨v', List.mem_cons_self, hp⟩, erase_eq_put, getElem?_put_self]
        · rw [if_neg hp, if_neg]
          rintro ⟨v, hv, hpv⟩
          rcases List.mem_cons.mp hv with h | h
          · cases h
            exact hp hpv
          · exact hl ⟨v, h, hpv⟩
      · have hm : (if p k' v' = true then m.erase k' else m)[k]? = m[k]? := by
          split_ifs
          · rw [erase_eq_put, getElem?_put_of_ne _ hk]
          · rfl
        have hiff : (∃ v, (k, v) ∈ (k', v') :: l ∧ p k v = true) ↔ ∃ v, (k, v) ∈ l ∧
            p k v = true := by
          simp only [List.mem_cons, Prod.mk.injEq]
          constructor
          · rintro ⟨v, ⟨rfl, -⟩ | h, hv⟩
            · exact absurd rfl hk
            · exact ⟨v, h, hv⟩
          · rintro ⟨v, h, hv⟩
            exact ⟨v, Or.inr h, hv⟩
        rw [hm, if_neg (hiff.not.mpr hl)]

theorem getElem?_eraseWhere (p : α → β → Bool) (m : ExtTreeMap α β cmp) (k : α) :
    (eraseWhere p m)[k]? = m[k]?.filter fun v => !p k v := by
  classical
  rw [eraseWhere, getElem?_foldl_erase]
  simp only [ExtTreeMap.mem_toList_iff_getElem?_eq_some]
  rcases h : m[k]? with _ | v
  · simp
  · rcases hp : p k v <;> simp [hp, Option.filter]

end EntryMap
