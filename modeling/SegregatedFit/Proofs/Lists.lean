import Mathlib.Data.List.Nodup
import Mathlib.Logic.Function.Basic
import SegregatedFit.SizeClass

namespace SegregatedFit

section Middle

variable {α : Type} {a b : α} {left between right : List α}

theorem mem_around (member : a ∈ left ++ between ++ right) (other : a ∉ between) :
    a ∈ left ++ right := by
  simp only [List.mem_append] at member ⊢
  tauto

theorem mem_of_around (between : List α) (outer : a ∈ left ++ right) :
    a ∈ left ++ between ++ right := by
  simp only [List.mem_append] at outer ⊢
  tauto

theorem mem_cons_of_around (outer : a ∈ left ++ right) : a ∈ left ++ b :: right := by
  rw [List.append_cons]
  exact mem_of_around [b] outer

/-- What stands in a list without repetitions comes again neither in front of it nor behind it. -/
theorem not_mem_around (nodup : (left ++ a :: right).Nodup) : a ∉ left ++ right :=
  (List.nodup_cons.mp (List.nodup_middle.mp nodup)).1

theorem not_mem_between (nodup : (left ++ between ++ right).Nodup) (outer : a ∈ left ++ right) :
    a ∉ between := by
  intro inner
  obtain ⟨front, rest, rfl⟩ := List.append_of_mem inner
  rw [List.append_assoc, List.append_assoc, List.cons_append, ← List.append_assoc] at nodup
  apply not_mem_around nodup
  simp only [List.mem_append] at outer ⊢
  tauto

theorem headD_ne_second (nodup : (left ++ a :: b :: right).Nodup) (stop : α) :
    (left ++ a :: b :: right).headD stop ≠ b := by
  intro first
  rw [List.append_cons] at nodup
  apply not_mem_around nodup
  rw [← first]
  cases left <;> simp

theorem erase_second [BEq α] [LawfulBEq α] (nodup : (left ++ a :: b :: right).Nodup) :
    (left ++ a :: b :: right).erase b = left ++ a :: right := by
  rw [List.append_cons] at nodup ⊢
  have absent : b ∉ left ++ [a] := fun early =>
    not_mem_around nodup (List.mem_append_left _ early)
  rw [List.erase_append_right _ absent, List.erase_cons_head, List.append_assoc,
    List.singleton_append]

end Middle

/-! One list for each size class, of which one is changed. -/

section Families

variable {α : Type} {files : SizeClass → List α} {own : SizeClass} {a b : α}

theorem mem_update_cons {cls : SizeClass} :
    a ∈ Function.update files own (b :: files own) cls ↔ a = b ∧ cls = own ∨ a ∈ files cls := by
  by_cases same : cls = own
  · subst same
    simp
  · simp [same]

theorem nodup_update_cons (nodup : ∀ cls, (files cls).Nodup) (fresh : b ∉ files own)
    (cls : SizeClass) : (Function.update files own (b :: files own) cls).Nodup := by
  by_cases same : cls = own
  · subst same
    rw [Function.update_self]
    exact List.nodup_cons.mpr ⟨fresh, nodup cls⟩
  · rw [Function.update_of_ne same]
    exact nodup cls

theorem update_sublist {fewer : List α} (sub : fewer.Sublist (files own)) (cls : SizeClass) :
    (Function.update files own fewer cls).Sublist (files cls) := by
  by_cases same : cls = own
  · subst same
    rwa [Function.update_self]
  · rw [Function.update_of_ne same]

theorem mem_of_mem_update_erase [BEq α] {cls : SizeClass}
    (stays : a ∈ Function.update files own ((files own).erase b) cls) : a ∈ files cls :=
  (update_sublist List.erase_sublist cls).subset stays

end Families

end SegregatedFit
