import QuadIndex.Proofs.Tree.Contents
import QuadIndex.Tree.Quadtree

/-!
# Histories of a tree

A history is a run of calls on a new tree. Beside the tree it keeps the entries that the tree has
accepted since it was last cleared, so that what the tree holds can be compared with what it was
given.

* `History.run_induction`: what holds of a new tree and is kept by insertions holds after any run.
* `History.entries_perm`: a tree holds what it accepted.
-/

namespace QuadIndex

/-- A call that changes a tree. -/
inductive Call (α ν : Type) where
  | insert (box : Box α) (value : ν)
  | clear

/-- A tree, and the entries accepted since it was last cleared. -/
structure History (α ν : Type) where
  tree : Quadtree α ν
  accepted : List (Entry α ν)

namespace History

variable {α ν : Type}

/-- The history of a new tree. -/
def start (rules : TreeRules) : History α ν := ⟨.empty rules, []⟩

variable [Scalar α]

/-- The history after one more call. An insertion that is refused changes nothing. -/
def step (h : History α ν) : Call α ν → History α ν
  | .insert box value =>
    match (h.tree.insert box value).value with
    | .ok tree => ⟨tree, h.accepted ++ [⟨box, value⟩]⟩
    | .error _ => h
  | .clear => ⟨h.tree.clear, []⟩

/-- **The history of a new tree after some calls.** -/
def run (rules : TreeRules) (calls : List (Call α ν)) : History α ν :=
  calls.foldl step (start rules)

end History

variable {α ν : Type} [Scalar α]

/-- An insertion that succeeds had a valid box, and is an `Inserted` at the root. -/
theorem Quadtree.insert_ok {t t' : Quadtree α ν} {box : Box α} {value : ν}
    (h : (t.insert box value).value = .ok t') : box.isValid = true ∧
      ∃ root, Inserted t.rules ⟨box, value⟩ 0 t.root root ∧ t' = ⟨t.rules, root, t.size + 1⟩ := by
  unfold insert at h
  split at h
  · simp at h
  · rename_i hbox
    rw [Traced.value_map, map_eq_ok_iff] at h
    obtain ⟨root, hroot, rfl⟩ := h
    exact ⟨Box.check_eq_ok_iff.1 hbox, root, Node.insert_inserted hroot, rfl⟩

/-- A full leaf at the root is split only once, if its groups fit into leaves. -/
theorem Quadtree.insertOrKeep_of_fits {rules : TreeRules} {es : List (Entry α ν)} {size : Nat}
    {box : Box α} {value : ν} {cut : LeafCut α} (hbox : box.isValid = true)
    (hfull : rules.leafCapacity ≤ es.length)
    (hcut : (LeafCut.cutLeaf ((es ++ [Entry.mk box value]).map Entry.box)).value = .ok cut)
    (hfits : ∀ q, ((cut.deal Entry.box (es ++ [⟨box, value⟩])).get q).length ≤
      rules.leafCapacity) :
    (⟨rules, .leaf es, size⟩ : Quadtree α ν).insertOrKeep box value =
      ⟨rules, .ofChildren cut.square 0 cut.isLumped
        (.ofFn fun q => .ofGroup ((cut.deal Entry.box (es ++ [⟨box, value⟩])).get q)),
        size + 1⟩ := by
  have hover : (decide (rules.leafCapacity < (es ++ [(⟨box, value⟩ : Entry α ν)]).length) &&
      decide (0 < rules.maxTreeDepth)) = true := by
    rw [List.length_append, List.length_singleton, Bool.and_eq_true]
    exact ⟨decide_eq_true (by omega), decide_eq_true rules.depth_pos⟩
  rw [insertOrKeep, insert, Box.check_eq_ok_iff.2 hbox]
  simp only [Node.insert, Node.addToLeaf, hover, if_true, Traced.value_map,
    splitOverfull_of_fits hcut hfits]
  rfl

namespace History

theorem step_insert_tree (h : History α ν) (box : Box α) (value : ν) :
    (h.step (.insert box value)).tree = h.tree.insertOrKeep box value := by
  rw [step, Quadtree.insertOrKeep]
  cases (h.tree.insert box value).value <;> rfl

/-- **Induction on a run.** A clearing leads back to a new tree, so only insertions need a
step. -/
theorem run_induction {rules : TreeRules} {P : History α ν → Prop} (hstart : P (start rules))
    (hinsert : ∀ (root root' : Node α ν) (size : Nat) (accepted : List (Entry α ν))
      (e : Entry α ν), P ⟨⟨rules, root, size⟩, accepted⟩ → e.box.isValid = true →
      Inserted rules e 0 root root' → P ⟨⟨rules, root', size + 1⟩, accepted ++ [e]⟩)
    (calls : List (Call α ν)) : P (run rules calls) := by
  -- a run goes on from any history under the same rules
  have hrun : ∀ (calls : List (Call α ν)) (h : History α ν), h.tree.rules = rules → P h →
      P (calls.foldl step h) := by
    intro calls
    induction calls with
    | nil => intro h _ hP; exact hP
    | cons c calls ih =>
      intro h hrules hP
      cases c with
      | clear =>
        refine ih _ hrules ?_
        rw [step, Quadtree.clear, hrules]
        exact hstart
      | insert box value =>
        cases hv : (h.tree.insert box value).value with
        | error err =>
          have hstep : h.step (.insert box value) = h := by rw [step, hv]
          rw [List.foldl_cons, hstep]
          exact ih h hrules hP
        | ok tree =>
          obtain ⟨hvalid, root', hroot, rfl⟩ := Quadtree.insert_ok hv
          have hstep : h.step (.insert box value) =
              ⟨⟨h.tree.rules, root', h.tree.size + 1⟩, h.accepted ++ [⟨box, value⟩]⟩ := by
            rw [step, hv]
          rw [List.foldl_cons, hstep]
          refine ih _ hrules ?_
          rw [hrules] at hroot ⊢
          refine hinsert h.tree.root root' h.tree.size h.accepted ⟨box, value⟩ ?_ hvalid hroot
          rw [← hrules]
          exact hP
  exact hrun calls (start rules) rfl hstart

variable (rules : TreeRules) (calls : List (Call α ν))

/-- **A tree holds what it accepted**, up to order. -/
theorem entries_perm : (run rules calls).tree.entries.Perm (run rules calls).accepted := by
  refine run_induction (P := fun h => h.tree.entries.Perm h.accepted) (List.Perm.refl _) ?_ calls
  intro root root' size accepted e hperm _ hroot
  refine hroot.entries_perm.trans ?_
  exact (hperm.cons e).trans (List.perm_append_singleton e accepted).symm

theorem size_eq_length : (run rules calls).tree.size = (run rules calls).accepted.length := by
  refine run_induction (P := fun h => h.tree.size = h.accepted.length) rfl ?_ calls
  intro root root' size accepted e hsize _ _
  rw [List.length_append, List.length_singleton, ← hsize]

/-- Only entries with valid boxes are accepted. -/
theorem accepted_valid : ∀ e ∈ (run rules calls).accepted, e.box.isValid = true := by
  refine run_induction (P := fun h => ∀ e ∈ h.accepted, e.box.isValid = true)
    (by simp [start]) ?_ calls
  intro root root' size accepted e hall hvalid _ x hx
  rcases List.mem_append.1 hx with hx | hx
  · exact hall x hx
  · rw [List.mem_singleton.1 hx]
    exact hvalid

/-- The entries of a tree have valid boxes. -/
theorem entries_isValid : ∀ e ∈ (run rules calls).tree.entries, e.box.isValid = true := fun e he =>
  accepted_valid rules calls e ((entries_perm rules calls).mem_iff.1 he)

end History
end QuadIndex
