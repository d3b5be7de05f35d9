import BufferFusion.Proofs.Execution.Transfer

/-!
# What kernels start from

Every node of a compiled graph is one that was built, with its operation. So constants have as many
values as their shape has elements, which is checked when they are built, and inputs have as many as
the tensors that are bound to them.
-/
namespace BufferFusion

open Graph Pass

theorem ElementType.size_pos (e : ElementType) : 0 < e.size := by cases e <;> decide

namespace Tensor

variable {t : Tensor} {shape : List Nat} {element : ElementType}

/-- The bytes are those of as many elements as the shape has. -/
def Filled (t : Tensor) : Prop := t.bytes.length = t.shape.prod * t.element.size

theorem length_flatMap_encode {α : Type} (e : ElementType) (f : α → Int) (xs : List α) :
    (xs.flatMap fun x => e.encode (f x)).length = xs.length * e.size := by
  simp [List.length_flatMap]

theorem filled_ofElements {elements : List Int} (h : ofElements element elements shape = .ok t) :
    t.Filled := by
  obtain ⟨count, hcount, h⟩ := Result.bind_eq_ok.1 h
  split at h
  · next hlen =>
    obtain rfl := Except.ok.inj h
    obtain rfl := Size.prod_of_product hcount
    exact (length_flatMap_encode element id elements).trans (congrArg (· * element.size) hlen)
  · cases h

theorem filled_ofLanes {lanes : List Float} (h : ofLanes lanes shape element = .ok t) :
    t.Filled := by
  obtain ⟨count, hcount, h⟩ := Result.bind_eq_ok.1 h
  split at h
  · cases h
  next hlen =>
  split at h
  · cases h
  obtain rfl := Except.ok.inj h
  obtain rfl := Size.prod_of_product hcount
  exact (length_flatMap_encode element element.ofLane lanes).trans
    (congrArg (· * element.size) (not_not.1 hlen))

theorem length_pieces {α : Type} (size count : Nat) (xs : List α) :
    (pieces size count xs).length = count := by
  induction count generalizing xs with
  | zero => rfl
  | succ count ih => rw [pieces, List.length_cons, ih]

/-- There is a lane for each element of the shape. -/
theorem Filled.length_lanes (h : t.Filled) {xs : List Float} (hx : t.lanes = .ok xs) :
    xs.length = t.shape.prod := by
  rw [lanes] at hx
  split at hx
  · cases hx
  have hlen := (Result.mapM_eq_ok.1 hx).length_eq
  rw [elements, List.length_map, length_pieces, h, Nat.mul_div_cancel _ t.element.size_pos] at hlen
  exact hlen.symm

end Tensor

/-- A source has the shape and the element type that it was declared with. -/
theorem Infer.Yields.of_declared {p : Option (List Float)} {op : Operation}
    {ins : List Layout} {l d : Layout} (h : Yields p op ins l) (hd : op.declared? = some d) :
    l.shape = d.shape ∧ l.element = d.element := by
  cases h with
  | input | constant =>
    obtain rfl := Option.some.inj hd
    exact ⟨rfl, rfl⟩
  | _ => cases hd

namespace Graph

variable {b f g h r : Graph} {x id : NodeId} {n : Node} {l : Layout}
  {tensors : List (NodeId × Tensor)} {values : InputValues}

/-! ### Where the nodes of a graph come from -/

/-- Every node of `f` is one of `g`, up to the layout of an input. -/
def StemsFrom (f g : Graph) : Prop :=
  ∀ x n, f.node? x = some n → ∃ m, g.node? x = some m ∧ n.op.Alike m.op

namespace StemsFrom

theorem refl (g : Graph) : g.StemsFrom g := fun _ _ hn => ⟨_, hn, .refl _⟩

theorem trans (k : h.StemsFrom f) (k' : f.StemsFrom g) : h.StemsFrom g := fun x _ hn =>
  let ⟨_, hm, hop⟩ := k x _ hn
  let ⟨m, hm', hop'⟩ := k' x _ hm
  ⟨m, hm', Eq.trans hop hop'⟩

theorem of_wiring (w : f.SameWiring g) : f.StemsFrom g := fun _ _ hn =>
  let ⟨m, hm, _, _, _, hop⟩ := w.node hn
  ⟨m, hm, Eq.symm hop⟩

/-- Operations other than inputs are the same. -/
theorem op (k : f.StemsFrom g) (hn : f.node? x = some n) (hne : ∀ d, n.op ≠ .input d) :
    ∃ m, g.node? x = some m ∧ m.op = n.op := by
  obtain ⟨m, hm, hop⟩ := k x n hn
  refine ⟨m, hm, ?_⟩
  rcases hop.eq_or_input with he | ⟨d, -, hd, -⟩
  · exact he.symm
  · exact absurd hd (hne d)

end StemsFrom

theorem Replaced.stemsFrom {old new : NodeId} (k : g.Replaced old new f) : f.StemsFrom g := by
  intro x n hn
  obtain ⟨-, m, hm, rfl⟩ := k.node_iff.1 hn
  exact ⟨m, hm, .refl _⟩

theorem Sound.stemsFrom_removeAlong (hs : g.Sound) (ids : List NodeId) :
    (removeAlong ids g).1.StemsFrom g := by
  refine (removeAlong_induction (I := fun f => f.Sound ∧ f.StemsFrom g) ?_ (fun k => k.1)
    ⟨hs, .refl g⟩ ids).2
  rintro f f' old new n ⟨hf, k⟩ - hrep
  have hr := hf.replaced hrep
  exact ⟨hr.sound hf, hr.stemsFrom.trans k⟩

theorem stemsFrom_fuseAlong (t : FusionRules) (ids : List NodeId) (g : Graph) :
    (fuseAlong t ids g).1.StemsFrom g := by
  intro x n hn
  have hop := op_fuseAlong t ids g x
  rw [hn, Option.map_some] at hop
  obtain ⟨m, hm, hmop⟩ := Option.map_eq_some_iff.1 hop.symm
  exact ⟨m, hm, by rw [hmop]; exact .refl _⟩

/-- Compiling adds no node. -/
theorem Built.stemsFrom (hb : b.Built) {config : BuildConfig} {p : Program}
    (hp : Program.build config b = .ok p) : p.graph.StemsFrom b := by
  obtain ⟨f, hf, hp⟩ := Result.bind_eq_ok.1 hp
  obtain rfl := Except.ok.inj hp
  rw [Program.byStage_passes, Program.passes] at hf
  obtain ⟨g₁, _, hi, hf⟩ := runPasses_cons hf
  obtain ⟨r, -⟩ := runInference_eq_ok hb.sound hi
  have hs₁ := r.wiring.sound hb.sound
  have k₁ : g₁.StemsFrom b := .of_wiring r.wiring.symm
  have hfuse : ∀ {g₂ g₃ : Graph} {changed : Bool}, g₂.StemsFrom b →
      (Pass.fusing .standard).run config g₂ = (g₃, .ok changed) → g₃.StemsFrom b := by
    intro g₂ g₃ changed k₂ hrun
    have k₃ := stemsFrom_fuseAlong .standard g₂.order g₂
    rw [show (fuseAlong .standard g₂.order g₂).1 = g₃ from congrArg Prod.fst hrun] at k₃
    exact k₃.trans k₂
  split at hf
  swap
  · obtain rfl := Except.ok.inj hf
    exact k₁
  split at hf
  · obtain ⟨g₂, _, hrem, hf⟩ := runPasses_cons hf
    obtain ⟨g₃, _, hrun, hf⟩ := runPasses_cons hf
    obtain rfl := Except.ok.inj hf
    have k₂ := hs₁.stemsFrom_removeAlong g₁.order
    rw [show (removeAlong g₁.order g₁).1 = g₂ from congrArg Prod.fst hrem] at k₂
    exact hfuse (k₂.trans k₁) hrun
  · obtain ⟨g₃, _, hrun, hf⟩ := runPasses_cons hf
    obtain rfl := Except.ok.inj hf
    exact hfuse k₁ hrun

/-! ### What is checked of built nodes -/

theorem checkSource_of_add {f : Graph} {name : String} {op : Operation} {inputs : List NodeId}
    (hadd : g.add name op inputs = .ok (f, id)) : checkSource name op = .ok () := by
  obtain ⟨_, hcheck, -⟩ := Result.bind_eq_ok.1 hadd
  simp only [checkNode] at hcheck
  split at hcheck
  · cases hcheck
  split at hcheck
  · cases hcheck
  split at hcheck
  · cases hcheck
  · exact hcheck

/-- Every operation of the graph has passed the check of sources. -/
def Checked (g : Graph) : Prop :=
  ∀ x n, g.node? x = some n → ∃ name, checkSource name n.op = .ok ()

theorem Checked.add (k : g.Checked) (hs : g.Sound) {name : String} {op : Operation}
    {inputs : List NodeId} (hadd : g.add name op inputs = .ok (f, id)) : f.Checked := by
  have hcheck := checkSource_of_add hadd
  obtain ⟨_, -, hok⟩ := Result.bind_eq_ok.1 hadd
  obtain ⟨rfl, -⟩ := Prod.mk.inj (Except.ok.inj hok)
  intro x n hn
  rcases (node_place_iff hs).1 hn with ⟨-, rfl⟩ | hn
  · exact ⟨name, hcheck⟩
  · exact k x n hn

theorem Checked.addWindows (k : g.Checked) (hs : g.Sound) {split : String} {input : NodeId}
    {shape : List Nat} {axis i start : Nat} {sizes : List Nat} :
    (g.addWindows split input shape axis i start sizes).1.Checked := by
  induction sizes generalizing g i start with
  | nil => exact k
  | cons size sizes ih =>
    simp only [Graph.addWindows]
    split
    · exact k
    · next hadd => exact ih (k.add hs hadd) (hs.add hadd)

theorem Built.checked (hb : b.Built) : b.Checked := by
  induction hb with
  | empty => simp [Checked, node?, Graph.empty]
  | add hb hadd ih => exact ih.add hb.sound hadd
  | split name input axis sizes hb ih =>
    simp only [Graph.split]
    split
    · exact ih
    · exact ih.addWindows hb.sound
  | mark hb hm ih =>
    obtain ⟨n, -, hok⟩ := Result.bind_eq_ok.1 hm
    obtain rfl := Except.ok.inj hok
    split <;> exact ih
  | replace hb hr ih =>
    intro x n hn
    obtain ⟨-, m, hm, rfl⟩ := (hb.sound.replaced hr).node_iff.1 hn
    exact ih x m hm

/-- A constant has as many values as its shape has elements. -/
theorem length_of_checkSource {name : String} {d : Layout} {xs : List Float}
    (h : checkSource name (.constant d xs) = .ok ()) : xs.length = d.shape.volume := by
  obtain ⟨_, -, h⟩ := Result.bind_eq_ok.1 h
  obtain ⟨count, hcount, h⟩ := Result.bind_eq_ok.1 h
  split at h
  · cases h
  next hc =>
  rw [not_not.1 hc] at hcount
  exact (Shape.count_eq_some hcount).2.symm

/-! ### What kernels are given -/

/-- The sources of a graph have as many values as elements, and nothing is a fully connected
layer. -/
structure Supplied (g : Graph) (values : InputValues) : Prop where
  input : ∀ {id n d l}, g.node? id = some n → n.op = .input d → g.layout id = .ok l →
    ∃ xs, values.lookup id = some xs ∧ xs.length = l.shape.volume
  constant : ∀ {id n d xs l}, g.node? id = some n → n.op = .constant d xs →
    g.layout id = .ok l → xs.length = l.shape.volume
  plain : ∀ {id n}, g.node? id = some n → n.op ≠ .fullyConnected

/-- What is bound to an input is a tensor of its element type. -/
theorem Bound.exists_tensor {lanes : List Float} (h : Bound tensors n l lanes) : ∃ t,
    tensors.lookup n.id = some t ∧ t.element = l.element ∧ l.shape = .ofSizes t.shape ∧
      t.lanes = .ok lanes := by
  obtain ⟨d, t, -, htensor, hbind⟩ := h
  rw [bindInput] at hbind
  split at hbind
  · cases hbind
  next helement =>
  obtain ⟨realized, hreal, hbind⟩ := Result.bind_eq_ok.1 hbind
  obtain ⟨xs, hxs, hbind⟩ := Result.bind_eq_ok.1 hbind
  obtain ⟨rfl, rfl⟩ := Prod.mk.inj (Except.ok.inj hbind)
  obtain ⟨rfl, -⟩ := Layout.realize_eq_ok hreal
  exact ⟨t, htensor, not_not.1 helement, rfl, hxs⟩

/-- A tensor brings as many values as the layout has elements that it gives to an input. -/
theorem Bound.length {lanes : List Float} (h : Bound tensors n l lanes)
    (ht : ∀ id t, tensors.lookup id = some t → t.Filled) : lanes.length = l.shape.volume := by
  obtain ⟨t, htensor, -, hshape, hlanes⟩ := h.exists_tensor
  rw [(ht _ _ htensor).length_lanes hlanes, hshape]
  exact (Shape.volume_known rfl).symm

/-- The input of a graph that is executed has been bound. -/
theorem Informed.bound_of_input (hinf : f.Informed tensors values g) {d : Layout}
    (hn : g.node? id = some n) (hop : n.op = .input d) :
    ∃ m lanes, Bound tensors m d lanes ∧ values.lookup id = some lanes := by
  obtain ⟨m, hm, -, -, -, hmop⟩ := hinf.wiring.symm.node hn
  obtain ⟨d', hd'⟩ : ∃ d', m.op = .input d' := by
    rcases hmop.eq_or_input with he | ⟨d', _, hd', -⟩
    · exact ⟨d, he.trans hop⟩
    · exact ⟨d', hd'⟩
  obtain ⟨n', realized, lanes, hbound, hn', hop', hlook⟩ := hinf.bound hm hd'
  obtain rfl := Option.some.inj (hn.symm.trans hn')
  obtain rfl := Operation.input.inj (hop.symm.trans hop')
  exact ⟨m, lanes, hbound, hlook⟩

end Graph

/-- A source of a graph that is executed has the shape and the element type of its declaration. -/
theorem Ready.of_declared {g : Graph} {values : InputValues} (k : Ready g values) {id : NodeId}
    {n : Node} {l d : Layout} (hn : g.node? id = some n) (hl : g.layout id = .ok l)
    (hd : n.op.declared? = some d) : l.shape = d.shape ∧ l.element = d.element := by
  obtain ⟨_, l', -, hl', hy⟩ := k.inferred hn
  obtain rfl := Except.ok.inj (hl.symm.trans hl')
  exact hy.of_declared hd

namespace Graph

variable {b f g : Graph} {id : NodeId} {n : Node} {l : Layout} {tensors : List (NodeId × Tensor)}
  {values : InputValues}

/-- What a graph without fully connected layers starts from when it is executed on filled tensors. -/
theorem Informed.supplied (hinf : f.Informed tensors values g) (k : Ready g values)
    (hs : f.StemsFrom b) (hc : b.Checked) (hplain : ∀ x n, b.node? x = some n → n.op ≠ .fullyConnected)
    (ht : ∀ id t, tensors.lookup id = some t → t.Filled) : g.Supplied values := by
  have hstems : g.StemsFrom b := (StemsFrom.of_wiring hinf.wiring.symm).trans hs
  refine ⟨fun {id n d l} hn hop hl => ?_, fun {id n d xs l} hn hop hl => ?_, fun {id n} hn hop => ?_⟩
  · obtain ⟨m, lanes, hbound, hlook⟩ := hinf.bound_of_input hn hop
    refine ⟨lanes, hlook, (hbound.length ht).trans ?_⟩
    exact congrArg Shape.volume (k.of_declared hn hl (by rw [hop]; rfl)).1.symm
  · obtain ⟨m, hm, hmop⟩ := hstems.op hn (by simp [hop])
    obtain ⟨name, hcheck⟩ := hc id m hm
    rw [hmop, hop] at hcheck
    refine (length_of_checkSource hcheck).trans ?_
    exact congrArg Shape.volume (k.of_declared hn hl (by rw [hop]; rfl)).1.symm
  · obtain ⟨m, hm, hmop⟩ := hstems.op hn (by simp [hop])
    exact hplain id m hm (hmop.trans hop)

end Graph
end BufferFusion
