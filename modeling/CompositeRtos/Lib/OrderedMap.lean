import Mathlib.Order.Lattice
import Mathlib.Data.List.Basic
import Mathlib.Data.List.Pairwise

/-!
Finite maps kept as a list of entries with strictly increasing keys. Besides lookup,
insertion and removal there are the two neighbour queries of an ordered map: the last
entry before a key and the first entry from a key on.
-/
namespace RtosOrderedMap
open List

structure OrderedMap (K V : Type) [LinearOrder K] where
  entries : List (K × V)
  sorted : entries.Pairwise fun a b => a.1 < b.1

variable {K V : Type} [LinearOrder K]

def insertEntry (k : K) (v : V) : List (K × V) → List (K × V)
  | [] => [(k, v)]
  | e :: rest =>
    if k < e.1 then (k, v) :: e :: rest
    else if k = e.1 then (k, v) :: rest
    else e :: insertEntry k v rest

theorem mem_insert_entry (sorted : entries.Pairwise fun a b => a.1 < b.1) (e : K × V) :
    e ∈ insertEntry k v entries ↔ e = (k, v) ∨ e ∈ entries ∧ e.1 ≠ k := by
  induction entries with
  | nil => simp [insertEntry]
  | cons first rest ih =>
    obtain ⟨ahead, sorted_rest⟩ := pairwise_cons.mp sorted
    unfold insertEntry
    split
    · rename_i before
      have others : ∀ e ∈ first :: rest, e.1 ≠ k := by
        intro e member
        rcases mem_cons.mp member with here | there
        · subst here
          exact ne_of_gt before
        · exact ne_of_gt (lt_trans before (ahead e there))
      rw [mem_cons]
      constructor
      · rintro (new | old)
        · exact Or.inl new
        · exact Or.inr ⟨old, others e old⟩
      rintro (new | old)
      · exact Or.inl new
      · exact Or.inr old.1
    · split
      · rename_i same
        subst same
        have others : ∀ e ∈ rest, e.1 ≠ first.1 := fun e member => ne_of_gt (ahead e member)
        simp only [mem_cons]
        constructor
        · rintro (new | old)
          · exact Or.inl new
          · exact Or.inr ⟨Or.inr old, others e old⟩
        rintro (new | ⟨here | there, other⟩)
        · exact Or.inl new
        · exact absurd (by rw [here]) other
        · exact Or.inr there
      · rename_i other
        rw [mem_cons, ih sorted_rest, mem_cons]
        constructor
        · rintro (here | new | old)
          · exact Or.inr ⟨Or.inl here, by rw [here]; exact Ne.symm other⟩
          · exact Or.inl new
          · exact Or.inr ⟨Or.inr old.1, old.2⟩
        rintro (new | ⟨here | there, ne⟩)
        · exact Or.inr (Or.inl new)
        · exact Or.inl here
        · exact Or.inr (Or.inr ⟨there, ne⟩)

theorem insert_entry_sorted (k : K) (v : V) (sorted : entries.Pairwise fun a b => a.1 < b.1) :
    (insertEntry k v entries).Pairwise fun a b => a.1 < b.1 := by
  induction entries with
  | nil => simp [insertEntry]
  | cons first rest ih =>
    obtain ⟨ahead, sorted_rest⟩ := pairwise_cons.mp sorted
    unfold insertEntry
    split
    · rename_i before
      apply pairwise_cons.mpr ⟨_, sorted⟩
      intro e member
      rcases mem_cons.mp member with here | there
      · rw [here]
        exact before
      · exact lt_trans before (ahead e there)
    · split
      · rename_i same
        apply pairwise_cons.mpr ⟨_, sorted_rest⟩
        intro e member
        rw [same]
        exact ahead e member
      rename_i not_before other
      apply pairwise_cons.mpr ⟨_, ih sorted_rest⟩
      intro e member
      rcases (mem_insert_entry sorted_rest e).mp member with new | old
      · rw [new]
        exact lt_of_le_of_ne (not_lt.mp not_before) (Ne.symm other)
      · exact ahead e old.1

theorem key_unique {entries : List (K × V)} (sorted : entries.Pairwise fun a b => a.1 < b.1) (h : e ∈ entries)
    (h' : e' ∈ entries) (same : e.1 = e'.1) : e = e' := by
  induction entries with
  | nil => cases h
  | cons first rest ih =>
    obtain ⟨ahead, sorted_rest⟩ := pairwise_cons.mp sorted
    rcases mem_cons.mp h with rfl | there
    · rcases mem_cons.mp h' with rfl | there'
      · rfl
      · exact absurd same (ne_of_lt (ahead e' there'))
    rcases mem_cons.mp h' with rfl | there'
    · exact absurd same (ne_of_gt (ahead e there))
    · exact ih sorted_rest there there'

theorem insert_entry_perm {entries : List (K × V)} (absent : ∀ e ∈ entries, e.1 ≠ k) :
    (insertEntry k v entries).Perm ((k, v) :: entries) := by
  induction entries with
  | nil => exact Perm.refl _
  | cons first rest ih =>
    unfold insertEntry
    rw [if_neg (Ne.symm (absent first (.head _)))]
    split
    · exact Perm.refl _
    · have onward := ih fun e member => absent e (mem_cons_of_mem first member)
      exact (onward.cons first).trans (Perm.swap (k, v) first rest)

theorem filter_key_perm {entries : List (K × V)} (sorted : entries.Pairwise fun a b => a.1 < b.1)
    (member : (k, v) ∈ entries) : entries.Perm ((k, v) :: entries.filter fun e => e.1 ≠ k) := by
  induction entries with
  | nil => cases member
  | cons first rest ih =>
    obtain ⟨ahead, sorted_rest⟩ := pairwise_cons.mp sorted
    rcases mem_cons.mp member with rfl | there
    · have others : ∀ e ∈ rest, decide (e.1 ≠ k) = true := by
        intro e inside
        exact decide_eq_true (ne_of_gt (ahead e inside))
      rw [filter_cons_of_neg (by simp), filter_eq_self.mpr others]
    have other : first.1 ≠ k := ne_of_lt (ahead _ there)
    rw [filter_cons_of_pos (by simpa using other)]
    exact ((ih sorted_rest there).cons first).trans (Perm.swap (k, v) first _)

namespace OrderedMap

def empty : OrderedMap K V := ⟨[], List.Pairwise.nil⟩

def insert (m : OrderedMap K V) (k : K) (v : V) : OrderedMap K V :=
  ⟨insertEntry k v m.entries, insert_entry_sorted k v m.sorted⟩

def erase (m : OrderedMap K V) (k : K) : OrderedMap K V :=
  ⟨m.entries.filter fun e => e.1 ≠ k, m.sorted.filter _⟩

def lookup (m : OrderedMap K V) (k : K) : Option V :=
  (m.entries.find? fun e => e.1 = k).map Prod.snd

def lastBefore (m : OrderedMap K V) (k : K) : Option (K × V) :=
  (m.entries.filter fun e => e.1 < k).getLast?

def firstFrom (m : OrderedMap K V) (k : K) : Option (K × V) :=
  m.entries.find? fun e => k ≤ e.1

theorem mem_insert (m : OrderedMap K V) (k : K) (v : V) (e : K × V) :
    e ∈ (m.insert k v).entries ↔ e = (k, v) ∨ e ∈ m.entries ∧ e.1 ≠ k :=
  mem_insert_entry m.sorted e

theorem mem_erase (m : OrderedMap K V) (k : K) (e : K × V) : e ∈ (m.erase k).entries ↔ e ∈ m.entries ∧ e.1 ≠ k := by
  simp [erase]

theorem entries_nodup (m : OrderedMap K V) : m.entries.Nodup :=
  m.sorted.imp fun less same => absurd (same ▸ less) (lt_irrefl _)

theorem lookup_some {m : OrderedMap K V} (h : m.lookup k = some v) : (k, v) ∈ m.entries := by
  obtain ⟨e, found, value⟩ := Option.map_eq_some_iff.mp h
  have key := List.find?_some found
  have member := List.mem_of_find?_eq_some found
  obtain ⟨k', v'⟩ := e
  simp only [decide_eq_true_eq] at key
  subst key value
  exact member

theorem lookup_none {m : OrderedMap K V} : m.lookup k = none ↔ ∀ e ∈ m.entries, e.1 ≠ k := by
  simp [lookup]

theorem lookup_of_mem {m : OrderedMap K V} (member : (k, v) ∈ m.entries) : m.lookup k = some v := by
  cases found : m.lookup k with
  | none => exact absurd rfl (lookup_none.mp found _ member)
  | some w =>
    have same := key_unique m.sorted member (lookup_some found) rfl
    rw [(Prod.mk.inj same).2]

theorem lookup_insert (m : OrderedMap K V) (k : K) (v : V) (x : K) :
    (m.insert k v).lookup x = if x = k then some v else m.lookup x := by
  split
  · rename_i here
    apply lookup_of_mem
    rw [mem_insert, here]
    exact Or.inl rfl
  rename_i other
  cases found : m.lookup x with
  | none =>
    rw [lookup_none] at found ⊢
    intro e member
    rcases (mem_insert m k v e).mp member with rfl | old
    · exact Ne.symm other
    · exact found e old.1
  | some w =>
    apply lookup_of_mem
    rw [mem_insert]
    exact Or.inr ⟨lookup_some found, other⟩

theorem insert_perm {m : OrderedMap K V} (absent : m.lookup k = none) :
    (m.insert k v).entries.Perm ((k, v) :: m.entries) :=
  insert_entry_perm (lookup_none.mp absent)

theorem erase_perm {m : OrderedMap K V} (found : m.lookup k = some v) :
    m.entries.Perm ((k, v) :: (m.erase k).entries) :=
  filter_key_perm m.sorted (lookup_some found)

theorem lookup_erase (m : OrderedMap K V) (k x : K) :
    (m.erase k).lookup x = if x = k then none else m.lookup x := by
  split
  · rename_i here
    rw [lookup_none]
    intro e member
    rw [here]
    exact ((mem_erase m k e).mp member).2
  rename_i other
  cases found : m.lookup x with
  | none =>
    rw [lookup_none] at found ⊢
    intro e member
    exact found e ((mem_erase m k e).mp member).1
  | some v => exact lookup_of_mem ((mem_erase m k (x, v)).mpr ⟨lookup_some found, other⟩)

theorem insert_perm_erase (m : OrderedMap K V) (k : K) (v : V) :
    (m.insert k v).entries.Perm ((k, v) :: (m.erase k).entries) := by
  have found : (m.insert k v).lookup k = some v := by rw [lookup_insert, if_pos rfl]
  have same : ((m.insert k v).erase k).entries.Perm (m.erase k).entries := by
    rw [perm_ext_iff_of_nodup (entries_nodup _) (entries_nodup _)]
    intro e
    rw [mem_erase, mem_erase, mem_insert]
    constructor
    · rintro ⟨rfl | old, other⟩
      · exact absurd rfl other
      · exact old
    · rintro ⟨member, other⟩
      exact ⟨Or.inr ⟨member, other⟩, other⟩
  exact (erase_perm found).trans (same.cons _)

theorem last_before_some {m : OrderedMap K V} (h : m.lastBefore k = some e) :
    e ∈ m.entries ∧ e.1 < k ∧ ∀ e' ∈ m.entries, e'.1 < k → e' = e ∨ e'.1 < e.1 := by
  have sorted := m.sorted.filter fun e => e.1 < k
  obtain ⟨front, shape⟩ := List.getLast?_eq_some_iff.mp h
  have here : e ∈ m.entries.filter fun e => e.1 < k := by
    rw [shape]
    simp
  rw [mem_filter] at here
  refine ⟨here.1, by simpa using here.2, ?_⟩
  intro e' member before
  have inside : e' ∈ m.entries.filter fun e => e.1 < k := mem_filter.mpr ⟨member, by simpa using before⟩
  rw [shape] at inside sorted
  rcases mem_append.mp inside with early | last
  · exact Or.inr ((pairwise_append.mp sorted).2.2 e' early e (mem_singleton_self e))
  · exact Or.inl (mem_singleton.mp last)

theorem last_before_none {m : OrderedMap K V} (h : m.lastBefore k = none) (member : e ∈ m.entries) : k ≤ e.1 := by
  have none_before := List.getLast?_eq_none_iff.mp h
  have outside := filter_eq_nil_iff.mp none_before e member
  simpa using outside

theorem first_from_some {m : OrderedMap K V} (h : m.firstFrom k = some e) :
    e ∈ m.entries ∧ k ≤ e.1 ∧ ∀ e' ∈ m.entries, k ≤ e'.1 → e' = e ∨ e.1 < e'.1 := by
  obtain ⟨here, front, rest, shape, earlier⟩ := List.find?_eq_some_iff_append.mp h
  have sorted := m.sorted
  refine ⟨by rw [shape]; simp, by simpa using here, ?_⟩
  intro e' member from_k
  rw [shape] at member sorted
  rcases mem_append.mp member with early | late
  · have skipped := earlier e' early
    simp only [Bool.not_eq_true', decide_eq_false_iff_not] at skipped
    exact absurd from_k skipped
  rcases mem_cons.mp late with same | later
  · exact Or.inl same
  · have behind := (pairwise_append.mp sorted).2.1
    exact Or.inr ((pairwise_cons.mp behind).1 e' later)

theorem first_from_none {m : OrderedMap K V} (h : m.firstFrom k = none) (member : e ∈ m.entries) : e.1 < k := by
  simpa using List.find?_eq_none.mp h e member

end OrderedMap

end RtosOrderedMap
