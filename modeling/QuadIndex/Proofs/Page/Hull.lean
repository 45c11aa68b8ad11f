import QuadIndex.Page.BoxKeys
import QuadIndex.Page.RangeKeys
import QuadIndex.Proofs.Box

/-!
# Hulls

The hull of some keys is the least valid key that covers all of them, whatever their order: any two
such keys cover each other, so they differ at most in the sign of a zero.

* `LeastCover`: what is asked of the summary of some keys.
* `LeastCover.foldl_join`: joining keys one by one gives their least cover, if joining two does.
* `Interval.hull?_leastCover`, `Box.hull?_leastCover`: the hulls of ranges and of boxes.
-/

namespace QuadIndex

/-- **The least valid key that covers some keys**, if there is a key at all. -/
structure LeastCover {κ : Type} (valid : κ → Bool) (covers : κ → κ → Bool) (keys : List κ)
    (summary : Option κ) : Prop where
  none_iff : summary = none ↔ keys = []
  isValid : ∀ {u : κ}, summary = some u → valid u = true
  coversAll : ∀ {u : κ}, summary = some u → ∀ k ∈ keys, covers u k = true
  isLeast : ∀ {u : κ}, summary = some u → ∀ v, valid v = true → (∀ k ∈ keys, covers v k = true) →
    covers v u = true

namespace LeastCover

section

variable {κ : Type} {valid : κ → Bool} {covers : κ → κ → Bool} {keys : List κ}
  {summary : Option κ}

theorem nil : LeastCover valid covers [] none := by
  refine ⟨by simp, ?_, ?_, ?_⟩
  all_goals
    intro u hu
    cases hu

theorem of_some {u : κ} (hne : keys ≠ []) (hvalid : valid u = true)
    (hcovers : ∀ k ∈ keys, covers u k = true)
    (hleast : ∀ v, valid v = true → (∀ k ∈ keys, covers v k = true) → covers v u = true) :
    LeastCover valid covers keys (some u) := by
  refine ⟨by simp [hne], ?_, ?_, ?_⟩
  all_goals
    intro x hx
    cases hx
    assumption

theorem of_pair {x y u : κ} (hvalid : valid u = true) (hx : covers u x = true)
    (hy : covers u y = true)
    (hleast : ∀ v, valid v = true → covers v x = true → covers v y = true → covers v u = true) :
    LeastCover valid covers [x, y] (some u) := by
  refine of_some (by simp) hvalid ?_ ?_
  · intro k hk
    rcases List.mem_cons.1 hk with rfl | hk
    · exact hx
    · rw [List.mem_singleton.1 hk]
      exact hy
  · intro v hv hall
    exact hleast v hv (hall x List.mem_cons_self)
      (hall y (List.mem_cons_of_mem _ List.mem_cons_self))

/-- The order of the keys does not matter. -/
theorem perm {keys' : List κ} (h : LeastCover valid covers keys summary) (hp : keys.Perm keys') :
    LeastCover valid covers keys' summary := by
  constructor
  case none_iff =>
    rw [h.none_iff]
    constructor
    · rintro rfl
      exact hp.nil_eq.symm
    · rintro rfl
      exact hp.eq_nil
  case isValid => exact h.isValid
  case coversAll => exact fun hu k hk => h.coversAll hu k (hp.mem_iff.2 hk)
  case isLeast => exact fun hu v hv hall => h.isLeast hu v hv fun k hk => hall k (hp.mem_iff.1 hk)

/-- Two least covers cover each other. -/
theorem covers_each_other {u v : κ} (hu : LeastCover valid covers keys (some u))
    (hv : LeastCover valid covers keys (some v)) : covers u v = true ∧ covers v u = true :=
  ⟨hv.isLeast rfl u (hu.isValid rfl) (hu.coversAll rfl),
    hu.isLeast rfl v (hv.isValid rfl) (hv.coversAll rfl)⟩

/-- **The least cover is unique** up to keys that cover each other. -/
theorem beq [BEq κ] (hbeq : ∀ {u v : κ}, covers u v = true → covers v u = true → (u == v) = true)
    {x y : Option κ} (hx : LeastCover valid covers keys x) (hy : LeastCover valid covers keys y) :
    (x == y) = true := by
  have hnone : x = none ↔ y = none := hx.none_iff.trans hy.none_iff.symm
  cases x with
  | none =>
    rw [hnone.1 rfl]
    rfl
  | some u =>
    cases y with
    | none => exact absurd (hnone.2 rfl) (by simp)
    | some v => exact hbeq (hx.covers_each_other hy).1 (hx.covers_each_other hy).2

/-- **Keys joined one by one** have the last join as their least cover, if the join of two keys is
theirs. -/
theorem foldl_join (valid : κ → Bool) (covers : κ → κ → Bool) {join : κ → κ → κ}
    (htrans : ∀ {a b c : κ}, covers a b = true → covers b c = true → covers a c = true)
    (hrefl : ∀ {a : κ}, valid a = true → covers a a = true)
    (hjoin : ∀ {a b : κ}, valid a = true → valid b = true →
      LeastCover valid covers [a, b] (some (join a b)))
    {k : κ} (hk : valid k = true) (hkeys : ∀ x ∈ keys, valid x = true) :
    LeastCover valid covers (k :: keys) (some (keys.foldl join k)) := by
  induction keys generalizing k with
  | nil =>
    refine of_some (by simp) hk ?_ fun v _ hv => hv k List.mem_cons_self
    intro x hx
    rw [List.mem_singleton.1 hx]
    exact hrefl hk
  | cons x keys ih =>
    rw [List.forall_mem_cons] at hkeys
    -- the least cover of the first two stands for both of them in the rest
    have hboth := hjoin hk hkeys.1
    have hrest := ih (hboth.isValid rfl) hkeys.2
    have hfirst := hrest.coversAll rfl _ List.mem_cons_self
    refine of_some (by simp) (hrest.isValid rfl) ?_ ?_
    · intro y hy
      rcases List.mem_cons.1 hy with rfl | hy
      · exact htrans hfirst (hboth.coversAll rfl _ List.mem_cons_self)
      rcases List.mem_cons.1 hy with rfl | hy
      · exact htrans hfirst (hboth.coversAll rfl _ (List.mem_cons_of_mem _ List.mem_cons_self))
      · exact hrest.coversAll rfl y (List.mem_cons_of_mem _ hy)
    · intro v hv hall
      refine hrest.isLeast rfl v hv fun y hy => ?_
      rcases List.mem_cons.1 hy with rfl | hy
      · refine hboth.isLeast rfl v hv fun z hz => hall z ?_
        exact List.Sublist.subset (List.sublist_append_left [k, x] keys) hz
      · exact hall y (List.mem_cons_of_mem _ (List.mem_cons_of_mem _ hy))

end

end LeastCover

variable {α : Type} [Scalar α] [LawfulScalar α]

open LawfulScalar Scalar

/-! ## Ranges -/

namespace Interval

def covers (i j : Interval α) : Bool := j.liesIn i

omit [LawfulScalar α] in
theorem covers_iff {i j : Interval α} :
    i.covers j = true ↔ i.low ≤ j.low ∧ j.high ≤ i.high := by
  simp only [covers, liesIn, Bool.and_eq_true, decide_eq_true_eq]

omit [LawfulScalar α] in
theorem isValid_iff {i : Interval α} : i.isValid = true ↔ i.low ≤ i.high := by
  simp only [isValid, decide_eq_true_eq]

theorem covers_trans {i j k : Interval α} (hij : i.covers j = true) (hjk : j.covers k = true) :
    i.covers k = true := by
  obtain ⟨h1, h2⟩ := covers_iff.1 hij
  obtain ⟨h3, h4⟩ := covers_iff.1 hjk
  exact covers_iff.2 ⟨le_trans h1 h3, le_trans h4 h2⟩

theorem covers_refl {i : Interval α} (h : i.isValid = true) : i.covers i = true :=
  covers_iff.2 ⟨le_left (isValid_iff.1 h), le_right (isValid_iff.1 h)⟩

theorem join_leastCover {i j : Interval α} (hi : i.isValid = true) (hj : j.isValid = true) :
    LeastCover isValid covers [i, j] (some (i.join j)) := by
  rw [isValid_iff] at hi hj
  have hlow : (i.join j).low ≤ i.low ∧ (i.join j).low ≤ j.low :=
    ⟨lesser_le_left (le_left hi), lesser_le_right (le_left hi) (le_left hj)⟩
  have hhigh : i.high ≤ (i.join j).high ∧ j.high ≤ (i.join j).high :=
    ⟨le_greater_left (le_right hi), le_greater_right (le_right hi) (le_right hj)⟩
  refine LeastCover.of_pair ?_ (covers_iff.2 ⟨hlow.1, hhigh.1⟩) (covers_iff.2 ⟨hlow.2, hhigh.2⟩) ?_
  · exact isValid_iff.2 (le_trans hlow.1 (le_trans hi hhigh.1))
  · intro v _ hvi hvj
    obtain ⟨h1, h2⟩ := covers_iff.1 hvi
    obtain ⟨h3, h4⟩ := covers_iff.1 hvj
    exact covers_iff.2 ⟨le_lesser h1 h3, greater_le h2 h4⟩

/-- **The hull of valid ranges is their least cover.** -/
theorem hull?_leastCover {is : List (Interval α)} (h : ∀ i ∈ is, i.isValid = true) :
    LeastCover isValid covers is (hull? is) := by
  cases is with
  | nil => exact LeastCover.nil
  | cons i is =>
    rw [List.forall_mem_cons] at h
    change LeastCover isValid covers (i :: is) (some (is.foldl join i))
    exact LeastCover.foldl_join isValid covers covers_trans covers_refl join_leastCover h.1 h.2

theorem beq_of_covers {i j : Interval α} (hij : i.covers j = true) (hji : j.covers i = true) :
    (i == j) = true := by
  obtain ⟨h1, h2⟩ := covers_iff.1 hij
  obtain ⟨h3, h4⟩ := covers_iff.1 hji
  cases i
  cases j
  change ((_ == _) && (_ == _)) = true
  rw [Bool.and_eq_true]
  exact ⟨beq_iff.2 ⟨h1, h3⟩, beq_iff.2 ⟨h4, h2⟩⟩

end Interval

/-! ## Boxes -/

namespace Box

omit [LawfulScalar α] in
theorem isValid_iff_ranges {b : Box α} :
    b.isValid = true ↔ b.xRange.isValid = true ∧ b.yRange.isValid = true := by
  rw [isValid_iff, Interval.isValid_iff, Interval.isValid_iff]
  rfl

omit [LawfulScalar α] in
theorem covers_iff_ranges {b c : Box α} : b.covers c = true ↔
    b.xRange.covers c.xRange = true ∧ b.yRange.covers c.yRange = true := by
  rw [covers_iff, Interval.covers_iff, Interval.covers_iff, and_assoc]
  rfl

theorem covers_trans {b c d : Box α} (hbc : b.covers c = true) (hcd : c.covers d = true) :
    b.covers d = true := by
  rw [covers_iff_ranges] at hbc hcd ⊢
  exact ⟨Interval.covers_trans hbc.1 hcd.1, Interval.covers_trans hbc.2 hcd.2⟩

theorem covers_refl {b : Box α} (h : b.isValid = true) : b.covers b = true := by
  rw [isValid_iff_ranges] at h
  exact covers_iff_ranges.2 ⟨Interval.covers_refl h.1, Interval.covers_refl h.2⟩

theorem join_leastCover {b c : Box α} (hb : b.isValid = true) (hc : c.isValid = true) :
    LeastCover isValid covers [b, c] (some (b.join c)) := by
  rw [isValid_iff_ranges] at hb hc
  obtain ⟨-, hxv, hxc, hxl⟩ := Interval.join_leastCover hb.1 hc.1
  obtain ⟨-, hyv, hyc, hyl⟩ := Interval.join_leastCover hb.2 hc.2
  refine LeastCover.of_pair (isValid_iff_ranges.2 ⟨hxv rfl, hyv rfl⟩) ?_ ?_ ?_
  · exact covers_iff_ranges.2 ⟨hxc rfl _ List.mem_cons_self, hyc rfl _ List.mem_cons_self⟩
  · have hmem : ∀ {i j : Interval α}, j ∈ [i, j] := List.mem_cons_of_mem _ List.mem_cons_self
    exact covers_iff_ranges.2 ⟨hxc rfl _ hmem, hyc rfl _ hmem⟩
  · intro v hv hvb hvc
    rw [isValid_iff_ranges] at hv
    rw [covers_iff_ranges] at hvb hvc ⊢
    refine ⟨hxl rfl _ hv.1 ?_, hyl rfl _ hv.2 ?_⟩
    · simpa using ⟨hvb.1, hvc.1⟩
    · simpa using ⟨hvb.2, hvc.2⟩

/-- **The hull of valid boxes is their least cover.** -/
theorem hull?_leastCover {bs : List (Box α)} (h : ∀ b ∈ bs, b.isValid = true) :
    LeastCover isValid covers bs (hull? bs) := by
  cases bs with
  | nil => exact LeastCover.nil
  | cons b bs =>
    rw [List.forall_mem_cons] at h
    change LeastCover isValid covers (b :: bs) (some (bs.foldl join b))
    exact LeastCover.foldl_join isValid covers covers_trans covers_refl join_leastCover h.1 h.2

end Box
end QuadIndex
