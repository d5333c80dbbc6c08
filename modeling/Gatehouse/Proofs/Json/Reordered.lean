import Gatehouse.Json.Value
import Mathlib.Data.Multiset.Bind

/-!
# JSON values in another order

Two values say the same up to order if one becomes the other by putting the items of arrays and the
members of objects into other orders, at any depth.

* `Json.Reordered` — that relation, as the closure of single changes.
* `Json.Reordered.cases` — what a reordered value can be: the same one, an array with reordered
  items, or an object with reordered members.  Items and members are compared as `Multiset.Rel`
  does: one by one, in some order.
* `Json.reordered_array_iff`, `Json.reordered_object_iff` — for arrays and objects this is all.
-/

namespace Gatehouse

/-! ## Lists in any order -/

section Lists

variable {α β γ δ : Type} {R : α → β → Prop} {S : γ → δ → Prop} {xs : List α} {ys : List β}

/-- What is made of the elements one by one is related if it is for related elements. -/
theorem rel_flatMap (h : Multiset.Rel R xs ys) {f : α → List γ} {g : β → List δ}
    (hfg : ∀ x y, R x y → Multiset.Rel S (f x) (g y)) :
    Multiset.Rel S (xs.flatMap f) (ys.flatMap g) := by
  rw [← Multiset.coe_bind, ← Multiset.coe_bind]
  exact Multiset.rel_bind hfg h

theorem optionRel_refl {R : α → α → Prop} (h : ∀ x, R x x) (a : Option α) : Option.Rel R a a := by
  cases a with
  | none => exact .none
  | some x => exact .some (h x)

theorem rel_toList {a : Option γ} {b : Option δ} (h : Option.Rel S a b) :
    Multiset.Rel S a.toList b.toList := by
  cases h with
  | none => exact .zero
  | some h => exact .cons h .zero

theorem rel_filterMap (h : Multiset.Rel R xs ys) {f : α → Option γ} {g : β → Option δ}
    (hfg : ∀ x y, R x y → Option.Rel S (f x) (g y)) :
    Multiset.Rel S (xs.filterMap f) (ys.filterMap g) := by
  rw [List.filterMap_eq_flatMap_toList, List.filterMap_eq_flatMap_toList]
  exact rel_flatMap h fun x y hxy => rel_toList (hfg x y hxy)

theorem rel_eq_iff_perm {l l' : List α} : Multiset.Rel Eq (l : Multiset α) l' ↔ l.Perm l' := by
  rw [Multiset.rel_eq, Multiset.coe_eq_coe]

/-- A relation of lists that allows permutations and the exchange of the first element allows the
exchange of all of them. -/
theorem of_rel {R : α → α → Prop} {P : List α → List α → Prop}
    (htrans : ∀ l m n, P l m → P m n → P l n) (hperm : ∀ l l', l.Perm l' → P l l')
    (hhead : ∀ a b l, R a b → P (a :: l) (b :: l)) {l l' : List α}
    (h : Multiset.Rel R (l : Multiset α) l') : P l l' := by
  -- The elements that are exchanged already stand in front.
  suffices ∀ done : List α, P (done ++ l) (done ++ l') from this []
  generalize hs : (l : Multiset α) = s at h
  generalize ht : (l' : Multiset α) = t at h
  induction h generalizing l l' with
  | zero =>
    obtain rfl := (Multiset.coe_eq_zero l).1 hs
    obtain rfl := (Multiset.coe_eq_zero l').1 ht
    exact fun done => hperm _ _ (.refl _)
  | @cons a b as bs hab hrel ih =>
    intro done
    obtain ⟨as, rfl⟩ := Quotient.exists_rep as
    obtain ⟨bs, rfl⟩ := Quotient.exists_rep bs
    have hl : l.Perm (a :: as) := Multiset.coe_eq_coe.1 hs
    have hl' : (b :: bs).Perm l' := Multiset.coe_eq_coe.1 ht.symm
    have hfront : (done ++ l).Perm (a :: (done ++ as)) :=
      (hl.append_left done).trans List.perm_middle
    have hback : (b :: (done ++ bs)).Perm (done ++ l') :=
      List.perm_middle.symm.trans (hl'.append_left done)
    exact htrans _ _ _ (hperm _ _ hfront) (htrans _ _ _ (hhead a b _ hab)
      (htrans _ _ _ (ih rfl rfl (b :: done)) (hperm _ _ hback)))

end Lists

/-! ## Values in any order -/

namespace Json

/-- A value becomes another one by putting items and members into other orders. -/
inductive Reordered : Json → Json → Prop where
  /-- Nothing changes. -/
  | refl (v : Json) : Reordered v v
  /-- Changes are made one after the other. -/
  | trans {u v w : Json} (h : Reordered u v) (h' : Reordered v w) : Reordered u w
  /-- The items of an array come in another order. -/
  | items {vs ws : List Json} (h : vs.Perm ws) : Reordered (.array vs) (.array ws)
  /-- The members of an object come in another order. -/
  | members {es fs : List (String × Json)} (h : es.Perm fs) : Reordered (.object es) (.object fs)
  /-- Something changes inside the first item of an array. -/
  | item {v w : Json} (vs : List Json) (h : Reordered v w) :
      Reordered (.array (v :: vs)) (.array (w :: vs))
  /-- Something changes inside the first member of an object. -/
  | member {v w : Json} (name : String) (es : List (String × Json)) (h : Reordered v w) :
      Reordered (.object ((name, v) :: es)) (.object ((name, w) :: es))

/-- Two members have the same name, and the value of one becomes that of the other. -/
def ReorderedMember (e f : String × Json) : Prop :=
  e.1 = f.1 ∧ Reordered e.2 f.2

instance : IsTrans Json Reordered :=
  ⟨fun _ _ _ => .trans⟩

instance : IsTrans (String × Json) ReorderedMember :=
  ⟨fun _ _ _ h h' => ⟨h.1.trans h'.1, h.2.trans h'.2⟩⟩

variable {v w : Json} {vs ws : List Json} {es fs : List (String × Json)}

theorem rel_reordered_of_perm (h : vs.Perm ws) : Multiset.Rel Reordered vs ws := by
  rw [Multiset.coe_eq_coe.2 h]
  exact Multiset.rel_refl_of_refl_on fun v _ => .refl v

theorem rel_reorderedMember_of_perm (h : es.Perm fs) : Multiset.Rel ReorderedMember es fs := by
  rw [Multiset.coe_eq_coe.2 h]
  exact Multiset.rel_refl_of_refl_on fun e _ => ⟨rfl, .refl e.2⟩

/-- The changes can be taken back. -/
theorem Reordered.symm (h : Reordered v w) : Reordered w v := by
  induction h with
  | refl v => exact .refl v
  | trans h h' ih ih' => exact ih'.trans ih
  | items h => exact .items h.symm
  | members h => exact .members h.symm
  | item vs h ih => exact .item vs ih
  | member name es h ih => exact .member name es ih

/-- What a reordered value can be. -/
theorem Reordered.cases (h : Reordered v w) :
    v = w ∨ (∃ vs ws, v = .array vs ∧ w = .array ws ∧ Multiset.Rel Reordered vs ws) ∨
      ∃ es fs, v = .object es ∧ w = .object fs ∧ Multiset.Rel ReorderedMember es fs := by
  induction h with
  | refl v => exact Or.inl rfl
  | items h => exact Or.inr (Or.inl ⟨_, _, rfl, rfl, rel_reordered_of_perm h⟩)
  | members h => exact Or.inr (Or.inr ⟨_, _, rfl, rfl, rel_reorderedMember_of_perm h⟩)
  | item vs h =>
    exact Or.inr (Or.inl ⟨_, _, rfl, rfl, .cons h (rel_reordered_of_perm (.refl vs))⟩)
  | member name es h =>
    exact Or.inr (Or.inr ⟨_, _, rfl, rfl, .cons ⟨rfl, h⟩ (rel_reorderedMember_of_perm (.refl es))⟩)
  | trans h h' ih ih' =>
    rcases ih with rfl | ⟨vs, ws, rfl, rfl, hrel⟩ | ⟨es, fs, rfl, rfl, hrel⟩
    · exact ih'
    · rcases ih' with rfl | ⟨ws', xs, hws, rfl, hrel'⟩ | ⟨_, _, hws, -⟩
      · exact Or.inr (Or.inl ⟨vs, ws, rfl, rfl, hrel⟩)
      · obtain rfl := Json.array.inj hws
        exact Or.inr (Or.inl ⟨vs, xs, rfl, rfl, hrel.trans _ hrel'⟩)
      · exact absurd hws (by simp)
    · rcases ih' with rfl | ⟨_, _, hfs, -⟩ | ⟨fs', gs, hfs, rfl, hrel'⟩
      · exact Or.inr (Or.inr ⟨es, fs, rfl, rfl, hrel⟩)
      · exact absurd hfs (by simp)
      · obtain rfl := Json.object.inj hfs
        exact Or.inr (Or.inr ⟨es, gs, rfl, rfl, hrel.trans _ hrel'⟩)

/-- Arrays are reordered if their items are, one by one in some order. -/
theorem reordered_array_iff :
    Reordered (.array vs) (.array ws) ↔ Multiset.Rel Reordered vs ws := by
  constructor
  · intro h
    rcases h.cases with heq | ⟨vs', ws', hvs, hws, hrel⟩ | ⟨_, _, hvs, -⟩
    · obtain rfl := Json.array.inj heq
      exact rel_reordered_of_perm (.refl vs)
    · obtain rfl := Json.array.inj hvs
      obtain rfl := Json.array.inj hws
      exact hrel
    · exact absurd hvs (by simp)
  · exact of_rel (P := fun vs ws => Reordered (.array vs) (.array ws)) (fun _ _ _ => .trans)
      (fun _ _ => .items) fun _ _ vs => .item vs

/-- Objects are reordered if their members are, one by one in some order. -/
theorem reordered_object_iff :
    Reordered (.object es) (.object fs) ↔ Multiset.Rel ReorderedMember es fs := by
  constructor
  · intro h
    rcases h.cases with heq | ⟨_, _, hes, -⟩ | ⟨es', fs', hes, hfs, hrel⟩
    · obtain rfl := Json.object.inj heq
      exact rel_reorderedMember_of_perm (.refl es)
    · exact absurd hes (by simp)
    · obtain rfl := Json.object.inj hes
      obtain rfl := Json.object.inj hfs
      exact hrel
  · refine of_rel (P := fun es fs => Reordered (.object es) (.object fs)) (fun _ _ _ => .trans)
      (fun _ _ => .members) fun e f es h => ?_
    obtain ⟨name, v⟩ := e
    obtain ⟨name', w⟩ := f
    obtain ⟨rfl, hvw⟩ : name = name' ∧ Reordered v w := h
    exact .member name es hvw

/-- A reordered string is the same string, and nothing else becomes one. -/
theorem Reordered.string? (h : Reordered v w) : v.string? = w.string? := by
  rcases h.cases with rfl | ⟨_, _, rfl, rfl, -⟩ | ⟨_, _, rfl, rfl, -⟩ <;> rfl

end Json

end Gatehouse
