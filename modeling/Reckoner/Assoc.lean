/-!
# Association lists

Lists of names and values in the order in which the names first came. `put` gives a name a new
value where it stands, under the spelling that it had, or adds it at the end.
-/

set_option autoImplicit false

namespace Reckoner

namespace Assoc

variable {κ α : Type} [BEq κ]

def put (name : κ) (v : α) : List (κ × α) → List (κ × α)
  | [] => [(name, v)]
  | (n, w) :: rest => if name == n then (n, v) :: rest else (n, w) :: put name v rest

/-- A name that was put has its new value, and every other name what it had. -/
theorem lookup_put [PartialEquivBEq κ] (name other : κ) (v : α) (entries : List (κ × α)) :
    (put name v entries).lookup other =
      if other == name then some v else entries.lookup other := by
  induction entries with
  | nil =>
    rw [put, List.lookup_cons, List.lookup_nil]
    cases other == name <;> rfl
  | cons e rest ih =>
    obtain ⟨n, w⟩ := e
    by_cases h : name == n
    · rw [put, if_pos h, List.lookup_cons, List.lookup_cons]
      by_cases h' : other == n
      · have same : (other == name) = true := PartialEquivBEq.trans h' (PartialEquivBEq.symm h)
        simp [h', same]
      · have other_ne : (other == name) = false :=
          Bool.eq_false_iff.2 fun same => h' (PartialEquivBEq.trans same h)
        simp [h', other_ne]
    · rw [put, if_neg h, List.lookup_cons, List.lookup_cons, ih]
      by_cases h' : other == n
      · have other_ne : (other == name) = false :=
          Bool.eq_false_iff.2 fun same =>
            h (PartialEquivBEq.trans (PartialEquivBEq.symm same) h')
        simp [h', other_ne]
      · simp [h']

theorem put_of_notMem [LawfulBEq κ] {name : κ} (v : α) {entries : List (κ × α)}
    (h : name ∉ entries.map Prod.fst) : put name v entries = entries ++ [(name, v)] := by
  induction entries with
  | nil => rfl
  | cons e rest ih =>
    rw [List.map_cons, List.mem_cons, not_or] at h
    rw [put, if_neg fun same => h.1 (eq_of_beq same), ih h.2, List.cons_append]

end Assoc

end Reckoner
