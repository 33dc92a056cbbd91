import Mathlib.Data.List.Nodup
import Mathlib.Data.List.Lookmap

/-!
# Insertion-ordered dictionaries

A dictionary is a list of key-value pairs without repeated keys. Assignment
overwrites in place or appends, so the order of first insertion survives.
-/

set_option autoImplicit false

namespace AssocDict

section Entries
variable {α β : Type*}

def keys (l : List (α × β)) : List α := l.map Prod.fst

@[simp] theorem keys_nil : keys ([] : List (α × β)) = [] := rfl

@[simp] theorem keys_cons (p : α × β) (l : List (α × β)) :
    keys (p::l) = p.1::keys l := rfl

variable [DecidableEq α]

def assign (a : α) (b : β) : List (α × β) → List (α × β)
  | [] => [(a, b)]
  | (k, v)::rest => if k = a then (k, b)::rest else (k, v)::assign a b rest

theorem lookup_cons_if (a k : α) (v : β) (l : List (α × β)) :
    ((k, v)::l).lookup a = if a = k then some v else l.lookup a := by
  by_cases h : a = k
  · simp [h]
  · have hb : (a == k) = false := beq_eq_false_iff_ne.mpr h
    simp [List.lookup_cons, hb, h]

theorem lookup_assign (a x : α) (b : β) (l : List (α × β)) :
    (assign a b l).lookup x = if x = a then some b else l.lookup x := by
  induction l with
  | nil => simp [assign, lookup_cons_if]
  | cons p l ih =>
    obtain ⟨k, v⟩ := p
    by_cases hk : k = a
    · subst hk
      by_cases hx : x = k <;> simp [assign, lookup_cons_if, hx]
    · by_cases hx : x = k
      · subst hx
        simp [assign, hk]
      · simp [assign, lookup_cons_if, hk, hx, ih]

theorem assign_self (a : α) (b : β) (l : List (α × β)) (h : l.lookup a = some b) :
    assign a b l = l := by
  induction l with
  | nil => simp at h
  | cons p l ih =>
    obtain ⟨k, v⟩ := p
    rw [lookup_cons_if] at h
    by_cases hk : a = k
    · subst hk
      obtain rfl : v = b := by simpa using h
      simp [assign]
    · have hne : k ≠ a := Ne.symm hk
      rw [if_neg hk] at h
      simp [assign, hne, ih h]

theorem mem_keys_assign (a x : α) (b : β) (l : List (α × β)) :
    x ∈ keys (assign a b l) ↔ x = a ∨ x ∈ keys l := by
  induction l with
  | nil => simp [assign]
  | cons p l ih =>
    obtain ⟨k, v⟩ := p
    by_cases hk : k = a
    · subst hk
      simp [assign]
    · simp [assign, hk, ih, or_left_comm]

theorem assign_of_not_mem (a : α) (b : β) (l : List (α × β)) (h : a ∉ keys l) :
    assign a b l = l++[(a, b)] := by
  induction l with
  | nil => rfl
  | cons p l ih =>
    obtain ⟨k, v⟩ := p
    obtain ⟨hk, hl⟩ := not_or.mp (mt List.mem_cons.mpr h)
    have hne : k ≠ a := Ne.symm hk
    simp [assign, hne, ih hl]

theorem keys_assign (a : α) (b : β) (l : List (α × β)) :
    keys (assign a b l) = if a ∈ keys l then keys l else keys l++[a] := by
  by_cases h : a ∈ keys l
  · rw [if_pos h]
    induction l with
    | nil => simp at h
    | cons p l ih =>
      obtain ⟨k, v⟩ := p
      by_cases hk : k = a
      · simp [assign, hk]
      · have hl : a ∈ keys l := (List.mem_cons.mp h).resolve_left (Ne.symm hk)
        simp [assign, hk, ih hl]
  · rw [if_neg h, assign_of_not_mem a b l h, keys, List.map_append]
    rfl

theorem nodup_assign (a : α) (b : β) (l : List (α × β)) (h : (keys l).Nodup) :
    (keys (assign a b l)).Nodup := by
  induction l with
  | nil => simp [assign]
  | cons p l ih =>
    obtain ⟨k, v⟩ := p
    obtain ⟨hn, hl⟩ := List.nodup_cons.mp h
    by_cases hk : k = a
    · simpa [assign, hk] using h
    · simp only [assign, hk, if_false, keys_cons, List.nodup_cons]
      constructor
      · intro hm
        rcases (mem_keys_assign a k b l).mp hm with hka | hkl
        · exact hk hka
        · exact hn hkl
      · exact ih hl

theorem mem_keys_iff_lookup (a : α) (l : List (α × β)) :
    a ∈ keys l ↔ (l.lookup a).isSome := by
  induction l with
  | nil => simp
  | cons p l ih =>
    obtain ⟨k, v⟩ := p
    by_cases h : a = k <;> simp [lookup_cons_if, h, ih]

theorem lookup_eq_none_of_not_mem (a : α) (l : List (α × β)) (h : a ∉ keys l) :
    l.lookup a = none := by
  rw [mem_keys_iff_lookup] at h
  exact Option.not_isSome_iff_eq_none.mp h

theorem mem_iff_lookup (l : List (α × β)) (h : (keys l).Nodup) (a : α) (b : β) :
    (a, b) ∈ l ↔ l.lookup a = some b := by
  induction l with
  | nil => simp
  | cons p l ih =>
    obtain ⟨k, v⟩ := p
    obtain ⟨hn, hl⟩ := List.nodup_cons.mp h
    by_cases hk : a = k
    · subst hk
      have hm : (a, b) ∉ l := fun hm => hn (List.mem_map.mpr ⟨(a, b), hm, rfl⟩)
      simp [hm, eq_comm]
    · simp [lookup_cons_if, hk, ih hl]

theorem forall₂_of_lookup {γ : Type*} (P : β → γ → Prop) (l : List (α × β)) (m : List (α × γ))
    (hk : keys l = keys m) (hn : (keys l).Nodup)
    (hp : ∀ k b c, l.lookup k = some b → m.lookup k = some c → P b c) :
    List.Forall₂ (fun p q => p.1 = q.1 ∧ P p.2 q.2) l m := by
  induction l generalizing m with
  | nil =>
    cases m with
    | nil => exact .nil
    | cons q m => simp at hk
  | cons p l ih =>
    cases m with
    | nil => simp at hk
    | cons q m =>
      obtain ⟨k, b⟩ := p
      obtain ⟨k', c⟩ := q
      obtain ⟨rfl, hkeys⟩ := List.cons.inj hk
      obtain ⟨hkl, hl⟩ := List.nodup_cons.mp hn
      constructor
      · exact ⟨rfl, hp k b c (by simp) (by simp)⟩
      · apply ih m hkeys hl
        intro x b' c' hb hc
        have hx : x ≠ k := by
          rintro rfl
          rw [lookup_eq_none_of_not_mem x l hkl] at hb
          cases hb
        exact hp x b' c' (by rw [lookup_cons_if, if_neg hx, hb])
          (by rw [lookup_cons_if, if_neg hx, hc])

end Entries

section Last
variable {γ δ : Type*} (f : γ → Option δ) (l : List γ)

theorem findSome?_reverse_eq_some (b : δ) : l.reverse.findSome? f = some b ↔
    ∃ before x after, l = before++x::after ∧ f x = some b ∧ ∀ y ∈ after, f y = none := by
  rw [List.findSome?_eq_some_iff]
  constructor
  · rintro ⟨after, x, before, hl, hx, hn⟩
    have hr : l = before.reverse++x::after.reverse := by
      rw [← List.reverse_reverse l, hl]
      simp
    exact ⟨before.reverse, x, after.reverse, hr, hx, fun y hy => hn y (List.mem_reverse.mp hy)⟩
  · rintro ⟨before, x, after, rfl, hx, hn⟩
    exact ⟨after.reverse, x, before.reverse, by simp, hx, fun y hy => hn y (List.mem_reverse.mp hy)⟩

theorem findSome?_reverse_eq_none : l.reverse.findSome? f = none ↔ ∀ x ∈ l, f x = none := by
  simp

/-- A filtered list answers like the whole one with the other entries silent. -/
theorem findSome?_filter (p : γ → Bool) :
    (l.filter p).findSome? f = l.findSome? (fun x => if p x then f x else none) := by
  induction l with
  | nil => rfl
  | cons x l ih =>
    cases hx : p x <;> simp [hx, ih, List.findSome?_cons]

end Last

structure Dict (α β : Type*) where
  items : List (α × β)
  nodup : (keys items).Nodup
  deriving DecidableEq

namespace Dict
variable {α β : Type*}

def empty : Dict α β := ⟨[], List.nodup_nil⟩

variable [DecidableEq α]

def get? (d : Dict α β) (a : α) : Option β := d.items.lookup a

def set (d : Dict α β) (a : α) (b : β) : Dict α β :=
  ⟨assign a b d.items, nodup_assign a b d.items d.nodup⟩

@[simp] theorem get?_empty (a : α) : (empty : Dict α β).get? a = none := rfl

@[simp] theorem get?_set (d : Dict α β) (a x : α) (b : β) :
    (d.set a b).get? x = if x = a then some b else d.get? x :=
  lookup_assign a x b d.items

/-- A walk in which each entry may assign the key: the last entry that does
decides. -/
theorem get?_foldl {γ : Type*} (step : Dict α β → γ → Dict α β) (a : α) (f : γ → Option β)
    (hs : ∀ d x, (step d x).get? a = (f x).or (d.get? a)) (l : List γ) (d : Dict α β) :
    (l.foldl step d).get? a = (l.reverse.findSome? f).or (d.get? a) := by
  induction l generalizing d with
  | nil => rfl
  | cons x l ih =>
    rw [List.foldl_cons, ih, hs, List.reverse_cons, List.findSome?_append]
    simp [Option.or_assoc]

theorem get?_foldl_set {γ : Type*} (f : γ → β) (l : List (α × γ)) (h : (keys l).Nodup)
    (d : Dict α β) (a : α) :
    (l.foldl (fun d p => d.set p.1 (f p.2)) d).get? a =
      ((l.lookup a).map f).or (d.get? a) := by
  induction l generalizing d with
  | nil => simp
  | cons p l ih =>
    obtain ⟨k, v⟩ := p
    obtain ⟨hk, hl⟩ := List.nodup_cons.mp h
    rw [List.foldl_cons, ih hl, get?_set, lookup_cons_if]
    by_cases ha : a = k
    · subst ha
      simp [lookup_eq_none_of_not_mem a l hk]
    · simp [ha]

def ofList (l : List (α × β)) : Dict α β := l.foldl (fun d p => d.set p.1 p.2) empty

theorem items_foldl_set (l : List (α × β)) (d : Dict α β) (h : (keys (d.items++l)).Nodup) :
    (l.foldl (fun d p => d.set p.1 p.2) d).items = d.items++l := by
  induction l generalizing d with
  | nil => simp
  | cons p l ih =>
    obtain ⟨k, v⟩ := p
    have hk : k ∉ keys d.items := by
      rw [keys, List.map_append, List.nodup_append] at h
      intro hm
      exact h.2.2 k hm k (by simp) rfl
    have hset : (d.set k v).items = d.items++[(k, v)] := assign_of_not_mem k v d.items hk
    have happ : (d.set k v).items++l = d.items++(k, v)::l := by simp [hset]
    rw [List.foldl_cons, ih (d.set k v) (happ ▸ h), happ]

@[simp] theorem items_ofList (l : List (α × β)) (h : (keys l).Nodup) : (ofList l).items = l :=
  items_foldl_set l empty h

theorem mem_items_iff (d : Dict α β) (a : α) (b : β) :
    (a, b) ∈ d.items ↔ d.get? a = some b :=
  mem_iff_lookup d.items d.nodup a b

theorem mem_keys_iff (d : Dict α β) (a : α) :
    a ∈ keys d.items ↔ (d.get? a).isSome :=
  mem_keys_iff_lookup a d.items

end Dict
end AssocDict
