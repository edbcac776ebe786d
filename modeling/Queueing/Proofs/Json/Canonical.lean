import Mathlib.Data.List.Perm.Basic
import Mathlib.Data.String.Basic
import Mathlib.Logic.Relation
import Queueing.Json.Value

/-!
# Values up to the order of members

The members of an object are the same object in any order. Two values are therefore the same up to
order when one comes from the other by reordering the members of objects, at any depth and as often
as it takes (`SameUpToOrder`); items of arrays stay where they are. The canonical form is a choice
of one value among those that are the same: it is reached from a value by reordering
(`sameUpToOrder_canonical`), and no reordering changes it (`Reorders.canonical_eq`). So values are
the same up to order just when their canonical forms are equal (`canonical_eq_iff`).
-/

namespace Queueing.Json.Value

/-! ## Sorted members -/

def SortedMembers (members : List (String × Value)) : Prop :=
  members.Pairwise fun m m' => m.1 < m'.1

section Sorting

variable {key : String} {value : Value} {members members' : List (String × Value)}

theorem eq_or_mem_of_mem_insertMember {m : String × Value}
    (h : m ∈ insertMember key value members) : m = (key, value) ∨ m ∈ members := by
  induction members with
  | nil => exact Or.inl (List.mem_singleton.mp h)
  | cons first rest ih =>
    obtain ⟨k, v⟩ := first
    rw [insertMember] at h
    split_ifs at h with hlt heq
    · exact List.mem_cons.mp h
    · exact Or.inr h
    · rcases List.mem_cons.mp h with rfl | h
      · exact Or.inr List.mem_cons_self
      · exact (ih h).imp_right (List.mem_cons_of_mem _)

theorem SortedMembers.inserted (h : SortedMembers members) :
    SortedMembers (insertMember key value members) := by
  induction members with
  | nil => exact List.pairwise_singleton _ _
  | cons first rest ih =>
    obtain ⟨k, v⟩ := first
    obtain ⟨hfirst, hrest⟩ := List.pairwise_cons.mp h
    rw [insertMember]
    split_ifs with hlt heq
    · refine List.pairwise_cons.mpr ⟨?_, h⟩
      intro m hm
      rcases List.mem_cons.mp hm with rfl | hm
      · exact hlt
      · exact hlt.trans (hfirst m hm)
    · exact h
    · refine List.pairwise_cons.mpr ⟨?_, ih hrest⟩
      intro m hm
      rcases eq_or_mem_of_mem_insertMember hm with rfl | hm
      · exact lt_of_le_of_ne (not_lt.mp hlt) (Ne.symm heq)
      · exact hfirst m hm

theorem insertMember_perm (h : key ∉ members.map Prod.fst) :
    (insertMember key value members).Perm ((key, value) :: members) := by
  induction members with
  | nil => exact .refl _
  | cons first rest ih =>
    obtain ⟨k, v⟩ := first
    rw [List.map_cons, List.mem_cons, not_or] at h
    rw [insertMember, if_neg h.1]
    split_ifs with hlt
    · exact .refl _
    · exact ((ih h.2).cons (k, v)).trans (.swap _ _ _)

theorem insertMember_of_lt (h : ∀ m ∈ members, key < m.1) :
    insertMember key value members = (key, value) :: members := by
  cases members with
  | nil => rfl
  | cons first rest => rw [insertMember, if_pos (h first List.mem_cons_self)]

theorem mem_of_mem_sortMembers {m : String × Value} (h : m ∈ sortMembers members) :
    m ∈ members := by
  induction members with
  | nil => exact h
  | cons first rest ih =>
    rcases eq_or_mem_of_mem_insertMember h with rfl | h
    · exact List.mem_cons_self
    · exact List.mem_cons_of_mem _ (ih h)

theorem sorted_sortMembers (members : List (String × Value)) :
    SortedMembers (sortMembers members) := by
  induction members with
  | nil => exact .nil
  | cons first rest ih => exact ih.inserted

theorem SortedMembers.sortMembers_eq (h : SortedMembers members) :
    sortMembers members = members := by
  induction members with
  | nil => rfl
  | cons first rest ih =>
    obtain ⟨hfirst, hrest⟩ := List.pairwise_cons.mp h
    show insertMember first.1 first.2 (sortMembers rest) = first :: rest
    rw [ih hrest, insertMember_of_lt hfirst]

/-- **Nothing is lost by sorting members with different keys.** -/
theorem sortMembers_perm (h : (members.map Prod.fst).Nodup) :
    (sortMembers members).Perm members := by
  induction members with
  | nil => exact .refl _
  | cons first rest ih =>
    obtain ⟨hfirst, hrest⟩ := List.nodup_cons.mp h
    have hperm := ih hrest
    have hnew : first.1 ∉ (sortMembers rest).map Prod.fst :=
      fun hmem => hfirst ((hperm.map Prod.fst).mem_iff.mp hmem)
    exact (insertMember_perm hnew).trans (hperm.cons first)

/-- **Members are sorted to the same in any order.** -/
theorem sortMembers_eq_of_perm (h : (members.map Prod.fst).Nodup)
    (hperm : members.Perm members') : sortMembers members = sortMembers members' := by
  have h' : (members'.map Prod.fst).Nodup := (hperm.map Prod.fst).nodup_iff.mp h
  refine List.Perm.eq_of_pairwise ?_ (sorted_sortMembers members) (sorted_sortMembers members')
    (((sortMembers_perm h).trans hperm).trans (sortMembers_perm h').symm)
  intro m m' _ _ hlt hgt
  exact absurd hgt hlt.asymm

end Sorting

/-! ## The canonical form -/

theorem canonicalItems_eq (items : List Value) : canonicalItems items = items.map canonical := by
  induction items with
  | nil => rfl
  | cons v rest ih => rw [canonicalItems, ih, List.map_cons]

theorem canonicalMembers_eq (members : List (String × Value)) :
    canonicalMembers members = members.map fun m => (m.1, m.2.canonical) := by
  induction members with
  | nil => rfl
  | cons m rest ih => rw [canonicalMembers, ih, List.map_cons]

theorem map_fst_canonicalMembers (members : List (String × Value)) :
    (canonicalMembers members).map Prod.fst = members.map Prod.fst := by
  rw [canonicalMembers_eq, List.map_map]
  rfl

theorem canonicalMembers_of_canonical {members : List (String × Value)}
    (h : ∀ m ∈ members, m.2.canonical = m.2) : canonicalMembers members = members := by
  have hmap : members.map (fun m => (m.1, m.2.canonical)) = members.map id :=
    List.map_congr_left fun m hm => Prod.ext rfl (h m hm)
  rw [canonicalMembers_eq, hmap, List.map_id]

mutual

/-- **The canonical form is canonical.** -/
theorem canonical_canonical : (v : Value) → v.canonical.canonical = v.canonical
  | .null | .bool _ | .number _ | .string _ => rfl
  | .array items => by
    simp only [canonical, canonicalItems_canonicalItems items]
  | .object members => by
    have hmembers : canonicalMembers (sortMembers (canonicalMembers members)) = _ :=
      canonicalMembers_of_canonical fun m hm =>
        canonical_of_mem members m (mem_of_mem_sortMembers hm)
    rw [canonical, canonical, hmembers, (sorted_sortMembers _).sortMembers_eq]

theorem canonicalItems_canonicalItems :
    (items : List Value) → canonicalItems (canonicalItems items) = canonicalItems items
  | [] => rfl
  | v :: rest => by
    rw [canonicalItems, canonicalItems, canonical_canonical v, canonicalItems_canonicalItems rest]

theorem canonical_of_mem : (members : List (String × Value)) →
    ∀ m ∈ canonicalMembers members, m.2.canonical = m.2
  | [], _, hm => absurd hm List.not_mem_nil
  | (k, v) :: rest, m, hm => by
    rcases List.mem_cons.mp hm with rfl | hm
    · exact canonical_canonical v
    · exact canonical_of_mem rest m hm

end

/-! ## Values without repeated keys -/

mutual

/-- No object of a value has two members with the same key. -/
def Distinct : Value → Prop
  | .array items => DistinctItems items
  | .object members => (members.map Prod.fst).Nodup ∧ DistinctMembers members
  | _ => True

def DistinctItems : List Value → Prop
  | [] => True
  | v :: rest => Distinct v ∧ DistinctItems rest

def DistinctMembers : List (String × Value) → Prop
  | [] => True
  | (_, v) :: rest => Distinct v ∧ DistinctMembers rest

end

theorem distinctItems_iff {items : List Value} :
    DistinctItems items ↔ ∀ v ∈ items, v.Distinct := by
  induction items with
  | nil => simp [DistinctItems]
  | cons v rest ih => simp [DistinctItems, ih]

theorem distinctMembers_iff {members : List (String × Value)} :
    DistinctMembers members ↔ ∀ m ∈ members, m.2.Distinct := by
  induction members with
  | nil => simp [DistinctMembers]
  | cons m rest ih => simp [DistinctMembers, ih]

/-! ## Reordering -/

/-- One object of a value, at any depth, has its members in another order. -/
inductive Reorders : Value → Value → Prop
  | members {members members' : List (String × Value)} (h : members.Perm members') :
    Reorders (.object members) (.object members')
  | item {before after : List Value} {v w : Value} (h : Reorders v w) :
    Reorders (.array (before ++ v :: after)) (.array (before ++ w :: after))
  | member {before after : List (String × Value)} {key : String} {v w : Value}
    (h : Reorders v w) :
    Reorders (.object (before ++ (key, v) :: after)) (.object (before ++ (key, w) :: after))

/-- One value comes from the other by reordering members. -/
def SameUpToOrder : Value → Value → Prop := Relation.ReflTransGen Reorders

theorem Reorders.symm {v w : Value} (h : Reorders v w) : Reorders w v := by
  induction h with
  | members h => exact .members h.symm
  | item _ ih => exact .item ih
  | member _ ih => exact .member ih

instance : Std.Symm Reorders := ⟨fun _ _ => Reorders.symm⟩

theorem SameUpToOrder.symm {v w : Value} (h : SameUpToOrder v w) : SameUpToOrder w v :=
  Relation.ReflTransGen.stdSymm.symm v w h

theorem SameUpToOrder.item {v w : Value} (h : SameUpToOrder v w) (before after : List Value) :
    SameUpToOrder (.array (before ++ v :: after)) (.array (before ++ w :: after)) := by
  induction h with
  | refl => exact .refl
  | tail _ hstep ih => exact ih.tail (.item hstep)

theorem SameUpToOrder.member {v w : Value} (h : SameUpToOrder v w) (key : String)
    (before after : List (String × Value)) :
    SameUpToOrder (.object (before ++ (key, v) :: after))
      (.object (before ++ (key, w) :: after)) := by
  induction h with
  | refl => exact .refl
  | tail _ hstep ih => exact ih.tail (.member hstep)

/-- **Reordering members changes neither the canonical form** nor which keys an object has. -/
theorem Reorders.canonical_eq {v w : Value} (h : Reorders v w) (hv : v.Distinct) :
    v.canonical = w.canonical ∧ w.Distinct := by
  induction h with
  | @members members members' h =>
    obtain ⟨hkeys, hvalues⟩ := hv
    refine ⟨?_, (h.map Prod.fst).nodup_iff.mp hkeys, ?_⟩
    · rw [canonical, canonical, canonicalMembers_eq, canonicalMembers_eq]
      rw [← map_fst_canonicalMembers, canonicalMembers_eq] at hkeys
      rw [sortMembers_eq_of_perm hkeys (h.map _)]
    · rw [distinctMembers_iff] at hvalues ⊢
      exact fun m hm => hvalues m (h.mem_iff.mpr hm)
  | @item before after v w h ih =>
    have hitems := distinctItems_iff.mp hv
    obtain ⟨heq, hw⟩ := ih (hitems v (by simp))
    refine ⟨?_, distinctItems_iff.mpr fun x hx => ?_⟩
    · simp only [canonical, canonicalItems_eq, List.map_append, List.map_cons, heq]
    · rcases List.mem_append.mp hx with hx | hx
      · exact hitems x (List.mem_append_left _ hx)
      · rcases List.mem_cons.mp hx with rfl | hx
        · exact hw
        · exact hitems x (List.mem_append_right _ (List.mem_cons_of_mem _ hx))
  | @member before after key v w h ih =>
    obtain ⟨hkeys, hvalues⟩ := hv
    have hmembers := distinctMembers_iff.mp hvalues
    obtain ⟨heq, hw⟩ := ih (hmembers (key, v) (by simp))
    refine ⟨?_, ?_, distinctMembers_iff.mpr fun m hm => ?_⟩
    · simp only [canonical, canonicalMembers_eq, List.map_append, List.map_cons, heq]
    · simpa using hkeys
    · rcases List.mem_append.mp hm with hm | hm
      · exact hmembers m (List.mem_append_left _ hm)
      · rcases List.mem_cons.mp hm with rfl | hm
        · exact hw
        · exact hmembers m (List.mem_append_right _ (List.mem_cons_of_mem _ hm))

theorem SameUpToOrder.canonical_eq {v w : Value} (h : SameUpToOrder v w) (hv : v.Distinct) :
    v.canonical = w.canonical := by
  have hboth : v.canonical = w.canonical ∧ w.Distinct := by
    induction h with
    | refl => exact ⟨rfl, hv⟩
    | tail _ hstep ih =>
      obtain ⟨heq, hdistinct⟩ := hstep.canonical_eq ih.2
      exact ⟨ih.1.trans heq, hdistinct⟩
  exact hboth.1

mutual

/-- **The canonical form is the value in another order.** -/
theorem sameUpToOrder_canonical : (v : Value) → v.Distinct → SameUpToOrder v v.canonical
  | .null, _ | .bool _, _ | .number _, _ | .string _, _ => .refl
  | .array items, h => sameUpToOrder_canonicalItems items h []
  | .object members, ⟨hkeys, hvalues⟩ => by
    rw [← map_fst_canonicalMembers] at hkeys
    exact (sameUpToOrder_canonicalMembers members hvalues []).tail
      (.members (sortMembers_perm hkeys).symm)

theorem sameUpToOrder_canonicalItems : (items : List Value) → DistinctItems items →
    ∀ before, SameUpToOrder (.array (before ++ items)) (.array (before ++ canonicalItems items))
  | [], _, _ => .refl
  | v :: rest, ⟨hv, hrest⟩, before => by
    have hfirst := (sameUpToOrder_canonical v hv).item before rest
    have hothers := sameUpToOrder_canonicalItems rest hrest (before ++ [v.canonical])
    rw [← List.append_cons, ← List.append_cons] at hothers
    exact hfirst.trans hothers

theorem sameUpToOrder_canonicalMembers : (members : List (String × Value)) →
    DistinctMembers members → ∀ before, SameUpToOrder (.object (before ++ members))
      (.object (before ++ canonicalMembers members))
  | [], _, _ => .refl
  | (k, v) :: rest, ⟨hv, hrest⟩, before => by
    have hfirst := (sameUpToOrder_canonical v hv).member k before rest
    have hothers := sameUpToOrder_canonicalMembers rest hrest (before ++ [(k, v.canonical)])
    rw [← List.append_cons, ← List.append_cons] at hothers
    exact hfirst.trans hothers

end

/-- **Values are the same up to order just when their canonical forms are equal.** -/
theorem canonical_eq_iff {v w : Value} (hv : v.Distinct) (hw : w.Distinct) :
    v.canonical = w.canonical ↔ SameUpToOrder v w := by
  constructor
  · intro h
    have hcanonical := sameUpToOrder_canonical v hv
    rw [h] at hcanonical
    exact hcanonical.trans (sameUpToOrder_canonical w hw).symm
  · intro h
    exact h.canonical_eq hv

theorem sameUpToOrder_array_iff {items items' : List Value} (h : DistinctItems items)
    (h' : DistinctItems items') :
    SameUpToOrder (.array items) (.array items') ↔ items.Forall₂ SameUpToOrder items' := by
  rw [← canonical_eq_iff (v := .array items) (w := .array items') h h', canonical, canonical,
    Value.array.injEq]
  induction items generalizing items' with
  | nil =>
    cases items' with
    | nil => simp [canonicalItems]
    | cons w rest' => simp [canonicalItems]
  | cons v rest ih =>
    cases items' with
    | nil => simp [canonicalItems]
    | cons w rest' =>
      rw [canonicalItems, canonicalItems, List.cons.injEq, List.forall₂_cons,
        canonical_eq_iff h.1 h'.1, ih h.2 h'.2]

end Queueing.Json.Value
