import QuadIndex.Error
import QuadIndex.Event

/-!
# When operations succeed

An operation made of steps succeeds if all of its steps do, and fails as the first step that fails.
These lemmas take an outcome apart into the outcomes of the steps.

* `bind_eq_ok_iff`, `map_eq_ok_iff`: one step after another.
* `forM_eq_ok_iff`, `mapM_eq_ok`, `exists_of_mem_mapM`, `mapM_eq_error_iff`: one step for each
  member of a list.
* `Traced.sequence_eq_ok_iff`: one step for each quadrant.
* `Box.check_eq_ok_iff`, `BoxRange.check_eq_ok_iff`: the checks.
-/

namespace QuadIndex

variable {β γ ε : Type}

theorem bind_eq_ok_iff {a : Except ε β} {f : β → Except ε γ} {y : γ} :
    a >>= f = .ok y ↔ ∃ x, a = .ok x ∧ f x = .ok y := by
  cases a with
  | error e => simp [bind, Except.bind]
  | ok x => simp [bind, Except.bind]

theorem map_eq_ok_iff {a : Except ε β} {f : β → γ} {y : γ} :
    a.map f = .ok y ↔ ∃ x, a = .ok x ∧ f x = y := by
  cases a with
  | error e => simp [Except.map]
  | ok x => simp [Except.map]

theorem forM_eq_ok_iff {f : β → Except ε Unit} {xs : List β} :
    xs.forM f = .ok () ↔ ∀ x ∈ xs, f x = .ok () := by
  induction xs with
  | nil => simp [List.forM, pure, Except.pure]
  | cons x xs ih =>
    have hcons : (x :: xs).forM f = f x >>= fun _ => xs.forM f := rfl
    rw [hcons, bind_eq_ok_iff, List.forall_mem_cons, ← ih]
    constructor
    · rintro ⟨⟨⟩, hx, hxs⟩
      exact ⟨hx, hxs⟩
    · rintro ⟨hx, hxs⟩
      exact ⟨(), hx, hxs⟩

theorem mapM_eq_ok {f : β → Except ε γ} {g : β → γ} {xs : List β}
    (h : ∀ x ∈ xs, f x = .ok (g x)) : xs.mapM f = .ok (xs.map g) := by
  induction xs with
  | nil => rfl
  | cons x xs ih =>
    rw [List.forall_mem_cons] at h
    rw [List.mapM_cons, h.1, ih h.2]
    rfl

/-- Each result is that of some step. -/
theorem exists_of_mem_mapM {f : β → Except ε γ} {xs : List β} {ys : List γ}
    (h : xs.mapM f = .ok ys) {y : γ} (hy : y ∈ ys) : ∃ x ∈ xs, f x = .ok y := by
  induction xs generalizing ys with
  | nil =>
    cases h
    exact absurd hy List.not_mem_nil
  | cons x xs ih =>
    rw [List.mapM_cons, bind_eq_ok_iff] at h
    obtain ⟨z, hz, hrest⟩ := h
    obtain ⟨zs, hzs, hys⟩ := bind_eq_ok_iff.1 hrest
    cases hys
    rcases List.mem_cons.1 hy with rfl | hy
    · exact ⟨x, List.mem_cons_self, hz⟩
    · obtain ⟨x', hx', hf⟩ := ih hzs hy
      exact ⟨x', List.mem_cons_of_mem x hx', hf⟩

/-- **The first step that fails decides**: those before it succeed, and those after it do not
matter. -/
theorem mapM_eq_error_iff {f : β → Except ε γ} {xs : List β} {e : ε} :
    xs.mapM f = .error e ↔ ∃ before x after, xs = before ++ x :: after ∧
      (∀ y ∈ before, ∃ z, f y = .ok z) ∧ f x = .error e := by
  induction xs with
  | nil => simp [pure, Except.pure]
  | cons y ys ih =>
    rw [List.mapM_cons]
    simp only [List.cons_eq_append_iff]
    cases hy : f y with
    | error e' =>
      constructor
      · intro h
        cases h
        exact ⟨[], y, ys, Or.inl ⟨rfl, rfl⟩, by simp, hy⟩
      · rintro ⟨before, x, after, ⟨rfl, hcons⟩ | ⟨before', rfl, -⟩, hbefore, hx⟩
        · cases hcons
          rw [hy] at hx
          cases hx
          rfl
        · obtain ⟨z, hz⟩ := hbefore y List.mem_cons_self
          rw [hy] at hz
          cases hz
    | ok z =>
      have hrest : ((.ok z : Except ε γ) >>= fun b => ys.mapM f >>= fun bs => pure (b :: bs)) =
          .error e ↔ ys.mapM f = .error e := by
        cases ys.mapM f <;> simp [bind, Except.bind, pure, Except.pure]
      rw [hrest, ih]
      constructor
      · rintro ⟨before, x, after, rfl, hbefore, hx⟩
        exact ⟨y :: before, x, after, Or.inr ⟨before, rfl, rfl⟩,
          List.forall_mem_cons.2 ⟨⟨z, hy⟩, hbefore⟩, hx⟩
      · rintro ⟨before, x, after, ⟨rfl, hcons⟩ | ⟨before', rfl, rfl⟩, hbefore, hx⟩
        · cases hcons
          rw [hy] at hx
          cases hx
        · exact ⟨before', x, after, rfl, (List.forall_mem_cons.1 hbefore).2, hx⟩

theorem Traced.sequence_eq_ok_iff {t : Quadrants (Traced (Except ε β))} {v : Quadrants β} :
    (Traced.sequence t).value = .ok v ↔ ∀ q, (t.get q).value = .ok (v.get q) := by
  simp only [Traced.sequence, Traced.value_andThen, Traced.value_silent, bind_eq_ok_iff,
    Except.ok.injEq]
  constructor
  · rintro ⟨a, ha, b, hb, c, hc, d, hd, rfl⟩ q
    cases q
    · exact ha
    · exact hb
    · exact hc
    · exact hd
  · intro h
    exact ⟨_, h .northWest, _, h .northEast, _, h .southWest, _, h .southEast, rfl⟩

/-- Four steps succeed together if each does. -/
theorem Traced.sequence_ok {t : Quadrants (Traced (Except ε β))}
    (h : ∀ q, ∃ x, (t.get q).value = .ok x) : ∃ v, (Traced.sequence t).value = .ok v := by
  obtain ⟨f, hf⟩ := Classical.axiomOfChoice h
  exact ⟨.ofFn f, sequence_eq_ok_iff.2 fun q => by rw [Quadrants.get_ofFn]; exact hf q⟩

variable {α : Type} [Scalar α]

theorem Box.check_eq_ok_iff {b : Box α} : b.check = .ok () ↔ b.isValid = true := by
  unfold Box.check
  by_cases h : b.isValid = true <;> simp [h]

theorem Interval.check_eq_ok_iff {i : Interval α} : i.check = .ok () ↔ i.isValid = true := by
  unfold Interval.check
  by_cases h : i.isValid = true <;> simp [h]

theorem BoxRange.check_eq_ok_iff {r : BoxRange α} :
    r.check = .ok () ↔ ∀ s ∈ r.sides, s.2.isValid = true := by
  unfold BoxRange.check
  cases h : r.sides.find? fun s => !s.2.isValid with
  | none =>
    rw [List.find?_eq_none] at h
    simpa using h
  | some s =>
    obtain ⟨side, i⟩ := s
    have hbad := List.find?_some h
    have hmem := List.mem_of_find?_eq_some h
    refine iff_of_false (by simp) fun hall => ?_
    have hgood := hall (side, i) hmem
    simp [hgood] at hbad

end QuadIndex
