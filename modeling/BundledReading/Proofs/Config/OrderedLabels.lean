import BundledReading.Config.Typed
import Mathlib.Data.List.Lemmas
import Mathlib.Data.String.Basic

/-!
# Labels in order

Labels are kept in the order of their keys, each key once, so they are told by what is looked up in
them. Reading the labels of a table looks every key up in the table and converts what it finds.
-/

namespace BundledReading

namespace Options

/-- Labels in the order of their keys, each key once. -/
def Ordered (labels : List (String × String)) : Prop := labels.Pairwise fun a b => a.1 < b.1

variable {labels others : List (String × String)} {key value : String}

theorem lookup_cons_eq_ite (first text other : String) (rest : List (String × String)) :
    ((first, text) :: rest).lookup other = if other = first then some text else rest.lookup other := by
  by_cases h : other = first
  · simp [h]
  · simp [List.lookup_cons, beq_eq_false_iff_ne.mpr h, h]

theorem lookup_putLabel (key value other : String) (labels : List (String × String)) :
    (putLabel key value labels).lookup other =
      if other = key then some value else labels.lookup other := by
  induction labels with
  | nil => exact lookup_cons_eq_ite key value other []
  | cons label rest ih =>
      obtain ⟨first, text⟩ := label
      rw [putLabel]
      split
      next heq =>
        dsimp only at heq
        subst heq
        rw [lookup_cons_eq_ite, lookup_cons_eq_ite]
        split <;> rfl
      · split
        · rw [lookup_cons_eq_ite]
        next hne _ =>
          rw [lookup_cons_eq_ite, lookup_cons_eq_ite, ih]
          by_cases h : other = first
          · rw [if_pos h, if_pos h, if_neg (h ▸ Ne.symm hne)]
          · rw [if_neg h, if_neg h]

theorem eq_or_mem_of_mem_putLabel {label : String × String}
    (h : label ∈ putLabel key value labels) : label = (key, value) ∨ label ∈ labels := by
  induction labels with
  | nil => exact .inl (List.mem_singleton.mp h)
  | cons first rest ih =>
      rw [putLabel] at h
      split at h
      · exact (List.mem_cons.mp h).imp_right (List.mem_cons_of_mem first)
      · split at h
        · exact List.mem_cons.mp h
        · rcases List.mem_cons.mp h with rfl | h
          · exact .inr List.mem_cons_self
          · exact (ih h).imp_right (List.mem_cons_of_mem first)

theorem Ordered.putLabel (h : Ordered labels) (key value : String) :
    Ordered (putLabel key value labels) := by
  induction labels with
  | nil => exact List.pairwise_singleton _ _
  | cons label rest ih =>
      obtain ⟨hfirst, hrest⟩ := List.pairwise_cons.mp h
      rw [Options.putLabel]
      split
      next heq => exact List.pairwise_cons.mpr ⟨heq ▸ hfirst, hrest⟩
      · split
        next hlt =>
          refine List.pairwise_cons.mpr ⟨List.forall_mem_cons.mpr ⟨hlt, ?_⟩, h⟩
          exact fun other hother => String.lt_trans hlt (hfirst other hother)
        next hne hlt =>
          have hbefore : label.1 < key := lt_of_le_of_ne (String.not_lt.mp hlt) (Ne.symm hne)
          refine List.pairwise_cons.mpr ⟨?_, ih hrest⟩
          intro other hother
          rcases eq_or_mem_of_mem_putLabel hother with rfl | hother
          · exact hbefore
          · exact hfirst other hother

/-- In ordered labels a label is looked up by its key. -/
theorem Ordered.mem_iff (h : Ordered labels) :
    (key, value) ∈ labels ↔ labels.lookup key = some value := by
  induction labels with
  | nil => simp
  | cons label rest ih =>
      obtain ⟨first, text⟩ := label
      obtain ⟨hfirst, hrest⟩ := List.pairwise_cons.mp h
      rw [lookup_cons_eq_ite]
      by_cases hkey : key = first
      · have hnew : (key, value) ∉ rest := fun hmem => String.lt_irrefl key (hkey ▸ hfirst _ hmem)
        simp [hkey ▸ hnew, hkey, eq_comm]
      · simp [hkey, ih hrest]

theorem Ordered.nodup (h : Ordered labels) : labels.Nodup := by
  refine List.nodup_iff_pairwise_ne.mpr (h.imp ?_)
  rintro a _ hlt rfl
  exact String.lt_irrefl a.1 hlt

/-- Ordered labels are told by what is looked up in them. -/
theorem Ordered.eq_of_lookup (h : Ordered labels) (h' : Ordered others)
    (hlookup : ∀ key, labels.lookup key = others.lookup key) : labels = others := by
  have hmem : ∀ label, label ∈ labels ↔ label ∈ others := by
    rintro ⟨key, value⟩
    rw [h.mem_iff, h'.mem_iff, hlookup]
  refine List.Perm.eq_of_pairwise ?_ h h'
    ((List.perm_ext_iff_of_nodup h.nodup h'.nodup).mpr hmem)
  exact fun a b _ _ hlt hgt => absurd hgt (String.lt_asymm hlt)

end Options

namespace Config.Setting

open Options

variable {table : String} {entries : List (String × Setting)} {labels : List (String × String)}

/-- Labels that could be read are in order, and each is what its key says, converted. -/
theorem toLabels_eq_ok (h : toLabels table entries = .ok labels) :
    Ordered labels ∧
      ∀ key, (labels.lookup key).map .ok = (find? key entries).map toText := by
  induction entries generalizing labels with
  | nil =>
      cases h
      exact ⟨List.Pairwise.nil, fun _ => rfl⟩
  | cons entry rest ih =>
      obtain ⟨first, setting⟩ := entry
      rw [toLabels] at h
      cases htext : setting.toText with
      | error mismatch => simp [htext, Except.mapError, bind, Except.bind] at h
      | ok value =>
          cases hrest : toLabels table rest with
          | error error => simp [htext, hrest, Except.mapError, bind, Except.bind] at h
          | ok more =>
              simp only [htext, hrest, Except.mapError, bind, Except.bind, pure, Except.pure,
                Except.ok.injEq] at h
              obtain ⟨hordered, hlookup⟩ := ih hrest
              subst h
              refine ⟨hordered.putLabel first value, fun key => ?_⟩
              rw [lookup_putLabel, find?]
              by_cases hkey : key = first
              · simp [hkey, htext]
              · rw [if_neg hkey, if_neg (Ne.symm hkey), hlookup]

/-- Labels can be read if each value can. -/
theorem exists_toLabels (h : ∀ entry ∈ entries, ∃ value, entry.2.toText = .ok value) :
    ∃ labels, toLabels table entries = .ok labels := by
  induction entries with
  | nil => exact ⟨[], rfl⟩
  | cons entry rest ih =>
      obtain ⟨value, hvalue⟩ := h entry List.mem_cons_self
      obtain ⟨labels, hlabels⟩ := ih fun other hother => h other (List.mem_cons_of_mem entry hother)
      refine ⟨putLabel entry.1 value labels, ?_⟩
      rw [toLabels, hvalue, hlabels]
      rfl

end Config.Setting

end BundledReading
