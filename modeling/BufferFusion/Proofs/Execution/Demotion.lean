import BufferFusion.Proofs.Execution.Rechecked
import BufferFusion.Proofs.Fusion.Concrete
import BufferFusion.Proofs.Fusion.Roots

/-!
# Demotion

Which decisions of a compilation fail on concrete shapes: slices and windows that begin inside a
block, and reshapes to a scalar whose pattern nobody could read. All other decisions hold on every
input, and so do those that were made without an assumption.
-/
namespace BufferFusion

theorem Dim.known_of_total {ds : List Dim} {n : Nat} (h : total ds = known n) :
    ∃ ns : List Nat, ds = ns.map known ∧ ns.sum = n := by
  induction ds generalizing n with
  | nil => exact ⟨[], rfl, by simpa using h⟩
  | cons d ds ih =>
    obtain ⟨i, j, rfl, hj, rfl⟩ := plus_eq_known.1 h
    obtain ⟨ns, rfl, rfl⟩ := ih hj
    exact ⟨i :: ns, rfl, rfl⟩

/-- A layout without padding. -/
theorem Padding.eq_zero_of_isZero {p : Padding} (h : p.isZero = true) : p = .zero p.rank := by
  obtain ⟨axes⟩ := p
  simp only [isZero, List.all_eq_true, beq_iff_eq] at h
  simp only [zero, rank, Padding.mk.injEq]
  exact List.eq_replicate_iff.2 ⟨rfl, h⟩

theorem Padding.settled_of_isZero {p : Padding} (h : p.isZero = true) : p.hasDynamic = false := by
  rw [eq_zero_of_isZero h, hasDynamic_zero]

namespace Fuse

theorem obstacle_eq_none {input output : Layout} : viewObstacle? input output = none ↔
    input.padding.isZero = true ∧ input.format.isBlocked = false ∧
      output.format.isBlocked = false ∧ input.element = output.element := by
  simp only [viewObstacle?]
  by_cases h₁ : input.padding.isZero = true <;> by_cases h₂ : input.format.isBlocked = true <;>
    by_cases h₃ : output.format.isBlocked = true <;> by_cases h₄ : input.element = output.element <;>
    simp_all

/-- What settles a comparison for good: counts that are known and equal. -/
theorem volume_eq_of_not_pending {input output : Layout} {compared : Compatibility}
    (ho : viewObstacle? input output = none) (hc : compareFlat input output = .ok compared)
    (hsame : compared.isCompatible = true) (hsettled : compared.isPending = false) :
    input.isStatic = true ∧ output.isStatic = true ∧ input.shape.volume = output.shape.volume := by
  obtain ⟨c, c', hcount, hcount', rfl⟩ := compareFlat_eq_ok ho hc
  cases c with
  | none => cases hsettled
  | some m =>
    cases c' with
    | none => cases hsettled
    | some n =>
      obtain ⟨hs, hm⟩ := Shape.count_eq_some hcount
      obtain ⟨hs', hn⟩ := Shape.count_eq_some hcount'
      refine ⟨hs, hs', ?_⟩
      simp only [Option.elim, Dim.compare] at hsame
      split at hsame
      · next he => rw [hm, hn, he]
      · cases hsame

/-- Compatible layouts whose shapes are known have the same number of elements. -/
theorem volume_eq_of_isStatic {input output : Layout} {compared : Compatibility}
    (ho : viewObstacle? input output = none) (hc : compareFlat input output = .ok compared)
    (hsame : compared.isCompatible = true) (hi : input.isStatic = true)
    (hs : output.isStatic = true) : input.shape.volume = output.shape.volume := by
  obtain ⟨c, c', hcount, hcount', rfl⟩ := compareFlat_eq_ok ho hc
  obtain rfl := Shape.count_of_isStatic hi hcount
  obtain rfl := Shape.count_of_isStatic hs hcount'
  simp only [Option.elim, Dim.compare] at hsame
  split at hsame
  · next he => exact he
  · cases hsame

end Fuse

theorem FusionRules.judge_eq {g : Graph} {id : NodeId} {n : Node} (hn : g.node? id = some n)
    (rule : FusionRule) (ht : standard n.tag = some rule) :
    standard.judge g id = rule ⟨g, n⟩ := by
  simp only [judge, Graph.get_eq_ok.2 hn, bind, Except.bind, ht]

namespace Infer

theorem Joined.mem {axis : Nat} {first : Layout} {dims out : List Dim} {ls : List Layout}
    (h : Joined axis first dims ls out) {l : Layout} (hl : l ∈ ls) :
    l.rank = first.rank ∧ l.element = first.element ∧ l.format = first.format := by
  induction h with
  | nil => cases hl
  | cons h₁ h₂ h₃ _ _ ih =>
    rcases List.mem_cons.1 hl with rfl | hl
    · exact ⟨h₁, h₂, h₃⟩
    · exact ih hl

theorem length_joinDims {axis slot i : Nat} {shape first : Shape} {as bs out : List Dim}
    (h : joinDims axis slot shape first i as bs = .ok out) (hlen : as.length = bs.length) :
    out.length = as.length := by
  induction as generalizing i bs out with
  | nil =>
    obtain rfl := List.eq_nil_of_length_eq_zero hlen.symm
    obtain rfl := Except.ok.inj h
    rfl
  | cons a as ih =>
    obtain _ | ⟨b, bs⟩ := bs
    · cases hlen
    obtain ⟨d, rest, -, hr, rfl⟩ := joinDims_cons.1 h
    simp [ih hr (Nat.succ.inj hlen)]

theorem Joined.length {axis : Nat} {first : Layout} {dims out : List Dim} {ls : List Layout}
    (h : Joined axis first dims ls out) (hlen : dims.length = first.rank) :
    out.length = first.rank := by
  induction h with
  | nil => exact hlen
  | cons h₁ _ _ hj _ ih =>
    refine ih ((length_joinDims hj ?_).trans hlen)
    exact hlen.trans h₁.symm

/-- The inputs of a concatenation look like its output. -/
theorem Yields.concatenation_inputs {p : Option (List Float)} {axis : Nat} {ins : List Layout}
    {l : Layout} (h : Yields p (.concatenation axis) ins l) : axis < l.rank ∧ ∀ a ∈ ins,
      a.rank = l.rank ∧ a.element = l.element ∧ a.format = l.format := by
  cases h with
  | @concatenation _ first rest dims hax hj =>
    have hlen := hj.length rfl
    refine ⟨by rwa [Layout.rank, Layout.unpadded, Shape.rank, hlen], fun a ha => ?_⟩
    rcases List.mem_cons.1 ha with rfl | ha
    · exact ⟨hlen.symm, rfl, rfl⟩
    · obtain ⟨h₁, h₂, h₃⟩ := hj.mem ha
      exact ⟨h₁.trans hlen.symm, h₂, h₃⟩

end Infer

/-! ### Decisions that can fail -/

namespace Graph

/-- A slice or a window of the blocked format that begins inside a block. -/
inductive Misaligned (g : Graph) (id : NodeId) : Prop
  | slice {n l i earlier} (node : g.node? id = some n) (op : n.op = .concatenation 1)
      (layout : g.layout id = .ok l) (format : l.format = .blocked16) (index : i < n.inputs.length)
      (extents : Fuse.Extents g 1 (n.inputs.take i) earlier) (cut : earlier.sum % 16 ≠ 0)
  | window {n l offsets sizes into input a o} (node : g.node? id = some n)
      (op : n.op = .crop offsets sizes) (layout : g.layout id = .ok l)
      (format : l.format = .blocked16) (reads : g.input id 0 = .ok into)
      (input_layout : g.layout into = .ok input) (padding : input.padding.axes[1]? = some a)
      (offset : offsets[1]? = some o) (cut : (a.lower + o) % 16 ≠ 0)

/-- A reshape to a scalar of an input that has not exactly one element. -/
inductive ScalarOfMany (g : Graph) (id : NodeId) : Prop
  | intro {n target copyZeros l into input} (node : g.node? id = some n)
      (op : n.op = .reshape target copyZeros) (layout : g.layout id = .ok l) (rank : l.rank = 0)
      (reads : g.input id 0 = .ok into) (input_layout : g.layout into = .ok input)
      (many : input.shape.volume ≠ 1)

/-- What makes a decision fail on concrete shapes. -/
def Fails (g : Graph) (id : NodeId) : Prop := g.Misaligned id ∨ g.ScalarOfMany id

variable {g h : Graph} {id into : NodeId} {n : Node} {l input : Layout}

theorem fails_reshape (hn : g.node? id = some n) {target : ReshapeTarget} {copyZeros : Bool}
    (hop : n.op = .reshape target copyZeros) (hl : g.layout id = .ok l)
    (hin : g.input id 0 = .ok into) (hi : g.layout into = .ok input) :
    g.Fails id ↔ l.rank = 0 ∧ input.shape.volume ≠ 1 := by
  constructor
  · rintro ((⟨hn', hop', -⟩ | ⟨hn', hop', -⟩) | ⟨-, -, hl', hr, hin', hi', hmany⟩)
    · obtain rfl := Option.some.inj (hn.symm.trans hn')
      cases hop.symm.trans hop'
    · obtain rfl := Option.some.inj (hn.symm.trans hn')
      cases hop.symm.trans hop'
    · obtain rfl := Except.ok.inj (hl.symm.trans hl')
      obtain rfl := Except.ok.inj (hin.symm.trans hin')
      obtain rfl := Except.ok.inj (hi.symm.trans hi')
      exact ⟨hr, hmany⟩
  · rintro ⟨hr, hmany⟩
    exact .inr ⟨hn, hop, hl, hr, hin, hi, hmany⟩

theorem fails_crop (hn : g.node? id = some n) {offsets sizes : List Nat}
    (hop : n.op = .crop offsets sizes) (hl : g.layout id = .ok l) (hin : g.input id 0 = .ok into)
    (hi : g.layout into = .ok input) : g.Fails id ↔ l.format = .blocked16 ∧ ∃ a o,
      input.padding.axes[1]? = some a ∧ offsets[1]? = some o ∧ (a.lower + o) % 16 ≠ 0 := by
  constructor
  · rintro ((⟨hn', hop', -⟩ | ⟨hn', hop', hl', hf, hin', hi', ha, ho, hcut⟩) | ⟨hn', hop', -⟩)
    · obtain rfl := Option.some.inj (hn.symm.trans hn')
      cases hop.symm.trans hop'
    · obtain rfl := Option.some.inj (hn.symm.trans hn')
      obtain ⟨rfl, -⟩ := Operation.crop.inj (hop.symm.trans hop')
      obtain rfl := Except.ok.inj (hl.symm.trans hl')
      obtain rfl := Except.ok.inj (hin.symm.trans hin')
      obtain rfl := Except.ok.inj (hi.symm.trans hi')
      exact ⟨hf, _, _, ha, ho, hcut⟩
    · obtain rfl := Option.some.inj (hn.symm.trans hn')
      cases hop.symm.trans hop'
  · rintro ⟨hf, a, o, ha, ho, hcut⟩
    exact .inl (.window hn hop hl hf hin hi ha ho hcut)

theorem fails_concatenation (hn : g.node? id = some n) {axis : Nat}
    (hop : n.op = .concatenation axis) (hl : g.layout id = .ok l) :
    g.Fails id ↔ axis = 1 ∧ l.format = .blocked16 ∧ ∃ i earlier, i < n.inputs.length ∧
      Fuse.Extents g axis (n.inputs.take i) earlier ∧ earlier.sum % 16 ≠ 0 := by
  constructor
  · rintro ((⟨hn', hop', hl', hf, hi, hx, hcut⟩ | ⟨hn', hop', -⟩) | ⟨hn', hop', -⟩)
    · obtain rfl := Option.some.inj (hn.symm.trans hn')
      obtain rfl := Operation.concatenation.inj (hop.symm.trans hop')
      obtain rfl := Except.ok.inj (hl.symm.trans hl')
      exact ⟨rfl, hf, _, _, hi, hx, hcut⟩
    · obtain rfl := Option.some.inj (hn.symm.trans hn')
      cases hop.symm.trans hop'
    · obtain rfl := Option.some.inj (hn.symm.trans hn')
      cases hop.symm.trans hop'
  · rintro ⟨rfl, hf, i, earlier, hi, hx, hcut⟩
    exact .inl (.slice hn hop hl hf hi hx hcut)

theorem not_fails (hn : g.node? id = some n) (hc : ∀ axis, n.op ≠ .concatenation axis)
    (hw : ∀ offsets sizes, n.op ≠ .crop offsets sizes)
    (hr : ∀ target copyZeros, n.op ≠ .reshape target copyZeros) : ¬ g.Fails id := by
  rintro ((⟨hn', hop', -⟩ | ⟨hn', hop', -⟩) | ⟨hn', hop', -⟩)
  all_goals obtain rfl := Option.some.inj (hn.symm.trans hn')
  · exact hc _ hop'
  · exact hw _ _ hop'
  · exact hr _ _ hop'

/-- Whether a reshape makes a scalar of many elements depends on shapes alone. -/
theorem ScalarOfMany.congr (k : g.ScalarOfMany id) (w : g.SameWiring h)
    (hl : ∀ x l, g.layout x = .ok l → ∃ l', h.layout x = .ok l' ∧ l'.shape = l.shape) :
    h.ScalarOfMany id := by
  obtain ⟨hn, hop, hl', hr, hin, hi, hmany⟩ := k
  obtain ⟨m, hm, -, -, -, hmop⟩ := w.node hn
  have hmop := hmop.eq_of_ne (by simp [hop])
  obtain ⟨l, hl'', hs⟩ := hl _ _ hl'
  obtain ⟨q, hi', hs'⟩ := hl _ _ hi
  refine ⟨hm, hmop.trans hop, hl'', ?_, w.input hin, hi', ?_⟩
  · rw [Layout.rank, hs]
    exact hr
  · rwa [hs']

/-- Whether a decision fails depends on shapes, and on the padding of a crop's input. -/
theorem Fails.congr (k : g.Fails id) (w : g.SameWiring h)
    (hl : ∀ x l, g.layout x = .ok l → ∃ padding, h.layout x = .ok (l.withPadding padding))
    (hin : ∀ n offsets sizes a, g.node? id = some n → n.op = .crop offsets sizes →
      g.input id 0 = .ok a → h.layout a = g.layout a) : h.Fails id := by
  obtain k | k := k
  swap
  · refine .inr (k.congr w fun x l hx => ?_)
    obtain ⟨padding, hx'⟩ := hl x l hx
    exact ⟨_, hx', rfl⟩
  obtain ⟨hn, hop, hl', hf, hi, hx, hcut⟩ | ⟨hn, hop, hl', hf, hin', hi, ha, ho, hcut⟩ := k
  all_goals
    obtain ⟨padding, hl''⟩ := hl _ _ hl'
    obtain ⟨m, hm, -, -, hmin, hmop⟩ := w.node hn
    have hmop := hmop.eq_of_ne (by simp [hop])
  · refine .inl (.slice hm (hmop.trans hop) hl'' hf (hmin ▸ hi) ?_ hcut)
    rw [hmin]
    refine hx.imp fun a s hs => ?_
    obtain ⟨l, hla, hd⟩ := dim?_eq_some.1 hs
    obtain ⟨q, hla'⟩ := hl a l hla
    exact dim?_eq_some.2 ⟨_, hla', hd⟩
  · refine .inl (.window hm (hmop.trans hop) hl'' hf (w.input hin') ?_ ha ho hcut)
    rw [hin _ _ _ _ hn hop hin']
    exact hi

end Graph
end BufferFusion
