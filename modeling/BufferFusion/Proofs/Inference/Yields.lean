import BufferFusion.Inference.Table
import BufferFusion.Proofs.Graph.Wiring
import BufferFusion.Proofs.Result

/-!
# What rules yield

A rule's answer as a relation between the operation, the layouts of the inputs and the output's
layout. Names and ids only matter for errors, and of the values of inputs only a pattern is read.
-/
namespace BufferFusion.Infer

/-- The pattern of a reshape, where the values of the second input are `values?`. -/
def readPattern (values? : Option (List Float)) : ReshapeTarget → Result (Option (List Int))
  | .pattern values => .ok (some values)
  | .fromInput rank =>
    match values? with
    | none => .ok none
    | some values =>
      if values.length ≠ rank then misfit (.patternLength values.length rank)
      else .ok (some (values.map (Lane.toIntIn Int64.minValue.toInt Int64.maxValue.toInt)))

/-- The shape of a reshape whose pattern may not be known yet. -/
def reshaped (input : Shape) (target : ReshapeTarget) (copyZeros : Bool) :
    Option (List Int) → Result Shape
  | some pattern => input.reshape pattern copyZeros
  | none => Shape.ofRank (targetRank target)

/-- Joining further inputs to the dims of those before. -/
inductive Joined (axis : Nat) (first : Layout) : List Dim → List Layout → List Dim → Prop
  | nil {dims} : Joined axis first dims [] dims
  | cons {dims l ls joined out} (rank : l.rank = first.rank)
      (element : l.element = first.element) (format : l.format = first.format)
      (join : joinDims axis 0 l.shape first.shape 0 dims l.shape.dims = .ok joined)
      (rest : Joined axis first joined ls out) : Joined axis first dims (l :: ls) out

/-- The rule for an operation answers `l`, given its inputs' layouts and the values of its second
input, where they are known. -/
inductive Yields (values? : Option (List Float)) : Operation → List Layout → Layout → Prop
  | input {d} : Yields values? (.input d) [] (.unpadded d.shape d.element d.format)
  | constant {d xs} : Yields values? (.constant d xs) [] (.unpadded d.shape d.element d.format)
  | permute {order a} (length : order.length = a.rank) (bijective : isPermutation order = true) :
      Yields values? (.permute order) [a]
        (.plain ⟨order.map fun axis => a.shape.dims.getD axis .unknown⟩ a.element)
  | reshape {target copyZeros a rest pattern shape}
      (read : readPattern values? target = .ok pattern)
      (shaped : reshaped a.shape target copyZeros pattern = .ok shape) :
      Yields values? (.reshape target copyZeros) (a :: rest) (.plain shape a.element)
  | concatenation {axis first rest dims} (inside : axis < first.rank)
      (joined : Joined axis first first.shape.dims rest dims) :
      Yields values? (.concatenation axis) (first :: rest)
        (.unpadded ⟨dims⟩ first.element first.format)
  | crop {offsets sizes a} (offsets_length : offsets.length = a.rank)
      (sizes_length : sizes.length = a.rank)
      (fits : fitsWindow a.shape.dims offsets sizes = .ok true) :
      Yields values? (.crop offsets sizes) [a] (.unpadded (.ofSizes sizes) a.element a.format)
  | reorder {format element a shape} (fitted : a.shape.fit format = .ok shape) :
      Yields values? (.reorder format element) [a] (.unpadded shape element format)
  | fullyConnected {data weights rest depth outputs weightsDepth}
      (data_depth : data.shape.dims.getLast? = some depth)
      (weights_dims : weights.shape.dims = [outputs, weightsDepth])
      (depths : (depth.merge weightsDepth).isSome = true)
      (bias : ∀ b ∈ rest, checkBias outputs b = .ok ()) :
      Yields values? .fullyConnected (data :: weights :: rest)
        (.plain ⟨data.shape.dims.dropLast ++ [outputs]⟩
          (if data.element.isFloat then data.element else .f32))

variable {c : InferenceContext} {ins : List Layout} {l : Layout} {op : Operation}

theorem input_eq_ok_iff
    (h : List.Forall₂ (fun a l => c.graph.layout a = .ok l) c.node.inputs ins) {slot : Nat} :
    c.input slot = .ok l ↔ ins[slot]? = some l := by
  simp only [InferenceContext.input]
  cases hs : c.node.inputs[slot]? with
  | none =>
    have : ins[slot]? = none := by
      rw [List.getElem?_eq_none_iff] at hs ⊢
      exact h.length_eq ▸ hs
    simp [this]
  | some a =>
    obtain ⟨hlt, ha⟩ := List.getElem?_eq_some_iff.1 hs
    have hlt' : slot < ins.length := h.length_eq ▸ hlt
    have hl := h.get hlt hlt'
    simp only [List.get_eq_getElem, ha] at hl
    obtain ⟨n, hn, hnl⟩ := Graph.layout_eq_ok.1 hl
    simp [Graph.get, hn, hnl, List.getElem?_eq_getElem hlt', bind, Except.bind, pure, Except.pure]

theorem pattern?_eq (c : InferenceContext) (target : ReshapeTarget) :
    pattern? c target = readPattern (c.inputValues? 1) target := by
  cases target with
  | pattern values => rfl
  | fromInput rank =>
    cases hv : c.inputValues? 1 <;> simp [pattern?, readPattern, hv]

/-- The slot of an input is for errors only. -/
theorem joinDims_slot {axis slot slot' i : Nat} {shape first : Shape} {as bs out : List Dim} :
    joinDims axis slot shape first i as bs = .ok out ↔
      joinDims axis slot' shape first i as bs = .ok out := by
  induction as generalizing i bs out with
  | nil => simp [joinDims]
  | cons a as ih =>
    obtain _ | ⟨b, bs⟩ := bs
    · simp [joinDims]
    simp only [joinDims]
    by_cases hi : i = axis
    · simp only [if_pos hi, Result.bind_eq_ok, ih]
    · simp only [if_neg hi]
      cases a.merge b with
      | none => simp [misfit, bind, Except.bind]
      | some d => simp only [Result.bind_eq_ok, ih]

/-- Inputs from one slot on are, but for the first, those from the next slot on. -/
theorem input_tail {slot : Nat} {ls : List Layout}
    (hls : ∀ i l', (l :: ls)[i]? = some l' → c.input (slot + i) = .ok l') :
    ∀ i l', ls[i]? = some l' → c.input (slot + 1 + i) = .ok l' := by
  intro i l' hi
  rw [Nat.add_assoc, Nat.add_comm 1 i]
  exact hls (i + 1) l' hi

theorem joinInputs_eq_ok {axis slot : Nat} {first : Layout} {dims out : List Dim}
    {ids : List NodeId} {ls : List Layout} (hlen : ids.length = ls.length)
    (hls : ∀ i l, ls[i]? = some l → c.input (slot + i) = .ok l) :
    joinInputs c axis first slot dims ids = .ok out ↔ Joined axis first dims ls out := by
  induction ids generalizing slot dims ls with
  | nil =>
    obtain rfl := List.eq_nil_of_length_eq_zero hlen.symm
    simp only [joinInputs, Except.ok.injEq]
    constructor
    · rintro rfl; exact .nil
    · rintro ⟨⟩; rfl
  | cons id ids ih =>
    obtain _ | ⟨l, ls⟩ := ls
    · cases hlen
    have hl : c.input slot = .ok l := hls 0 l rfl
    have hrest := input_tail hls
    have hlen' : ids.length = ls.length := Nat.succ.inj hlen
    rw [joinInputs, hl]
    constructor
    · intro h
      obtain ⟨_, hok, h⟩ := Result.bind_eq_ok.1 h
      obtain rfl := Except.ok.inj hok
      split at h
      · cases h
      next hm =>
      rw [not_or, not_or, not_not, not_not, not_not] at hm
      obtain ⟨joined, hj, h⟩ := Result.bind_eq_ok.1 h
      exact .cons hm.1 hm.2.1 hm.2.2 (joinDims_slot.1 hj) ((ih hlen' hrest).1 h)
    · rintro (_ | ⟨hr, he, hf, hj, hrest'⟩)
      refine Result.bind_eq_ok.2 ⟨l, rfl, ?_⟩
      rw [if_neg (by simp [hr, he, hf])]
      exact Result.bind_eq_ok.2 ⟨_, joinDims_slot.1 hj, (ih hlen' hrest).2 hrest'⟩

section Rules

variable {a : Layout} {rest : List Layout} {values? : Option (List Float)}

theorem permute_eq_ok {order : List Nat} (hop : c.node.op = .permute order)
    (ha : c.input 0 = .ok a) : permute c = .ok l ↔ Yields values? (.permute order) [a] l := by
  simp only [permute, hop, Result.bind_eq_ok, ha, Except.ok.injEq, exists_eq_left']
  constructor
  · intro h
    split at h
    · cases h
    next h₁ =>
    split at h
    · cases h
    next h₂ =>
    obtain rfl := Except.ok.inj h
    exact .permute (by simpa using h₁) (by simpa using h₂)
  · rintro (_ | _ | ⟨h₁, h₂⟩)
    rw [if_neg (by simpa using h₁), if_neg (by simpa using h₂)]
    rfl

theorem reshape_eq_ok {target : ReshapeTarget} {copyZeros : Bool}
    (hop : c.node.op = .reshape target copyZeros) (ha : c.input 0 = .ok a) :
    reshape c = .ok l ↔ Yields (c.inputValues? 1) (.reshape target copyZeros) (a :: rest) l := by
  simp only [reshape, hop, Result.bind_eq_ok, ha, Except.ok.injEq, exists_eq_left', pattern?_eq]
  constructor
  · rintro ⟨pattern, hp, h⟩
    cases pattern <;>
    · obtain ⟨shape, hs, h⟩ := Result.bind_eq_ok.1 h
      obtain rfl := Except.ok.inj h
      exact .reshape hp hs
  · intro h
    cases h with
    | @reshape _ _ _ _ pattern shape hp hs =>
      refine ⟨pattern, hp, ?_⟩
      cases pattern <;> exact Result.bind_eq_ok.2 ⟨shape, hs, rfl⟩

theorem concatenation_eq_ok {axis : Nat} (hop : c.node.op = .concatenation axis)
    (ha : c.input 0 = .ok a)
    (hrest : ∀ joined, joinInputs c axis a 1 a.shape.dims c.node.inputs.tail = .ok joined ↔
      Joined axis a a.shape.dims rest joined) :
    concatenation c = .ok l ↔ Yields values? (.concatenation axis) (a :: rest) l := by
  simp only [concatenation, hop, Result.bind_eq_ok, ha, Except.ok.injEq, exists_eq_left']
  constructor
  · intro h
    split at h
    · cases h
    next hlt =>
    obtain ⟨dims, hd, h⟩ := Result.bind_eq_ok.1 h
    obtain rfl := Except.ok.inj h
    exact .concatenation (Nat.lt_of_not_le hlt) ((hrest dims).1 hd)
  · intro h
    cases h with
    | @concatenation _ _ _ dims hlt hj =>
      rw [if_neg (Nat.not_le.2 hlt)]
      exact Result.bind_eq_ok.2 ⟨dims, (hrest dims).2 hj, rfl⟩

theorem crop_eq_ok {offsets sizes : List Nat} (hop : c.node.op = .crop offsets sizes)
    (ha : c.input 0 = .ok a) : crop c = .ok l ↔ Yields values? (.crop offsets sizes) [a] l := by
  simp only [crop, hop, Result.bind_eq_ok, ha, Except.ok.injEq, exists_eq_left']
  constructor
  · intro h
    split at h
    · cases h
    next hlen =>
    rw [not_or, not_not, not_not] at hlen
    obtain ⟨fits, hf, h⟩ := Result.bind_eq_ok.1 h
    split at h
    · next ht =>
      obtain rfl := Except.ok.inj h
      exact .crop hlen.1 hlen.2 (ht ▸ hf)
    · cases h
  · intro h
    cases h with
    | crop h₁ h₂ hf =>
      rw [if_neg (by simp [h₁, h₂])]
      exact Result.bind_eq_ok.2 ⟨true, hf, rfl⟩

theorem reorder_eq_ok {format : Format} {element : ElementType}
    (hop : c.node.op = .reorder format element) (ha : c.input 0 = .ok a) :
    reorder c = .ok l ↔ Yields values? (.reorder format element) [a] l := by
  simp only [reorder, hop, Result.bind_eq_ok, ha, Except.ok.injEq, exists_eq_left']
  constructor
  · rintro ⟨shape, hs, h⟩
    obtain rfl := Except.ok.inj h
    exact .reorder hs
  · intro h
    cases h with
    | @reorder _ _ _ shape hs => exact ⟨shape, hs, rfl⟩

theorem fullyConnected_eq_ok {b : Layout} (ha : c.input 0 = .ok a) (hb : c.input 1 = .ok b)
    (hlen : c.node.inputs.length = (a :: b :: rest).length)
    (hrest : rest = [] ∨ ∃ bias, rest = [bias] ∧ c.input 2 = .ok bias) :
    fullyConnected c = .ok l ↔ Yields values? .fullyConnected (a :: b :: rest) l := by
  simp only [fullyConnected, Result.bind_eq_ok, ha, hb, Except.ok.injEq, exists_eq_left']
  have hbias : ∀ outputs (r : Layout), (if c.node.inputs.length = 3 then do
        checkBias outputs (← c.input 2)
        pure r
      else pure r) = .ok l ↔ (∀ x ∈ rest, checkBias outputs x = .ok ()) ∧ r = l := by
    intro outputs r
    rcases hrest with rfl | ⟨bias, rfl, h2⟩
    · simp [hlen, pure, Except.pure]
    · simp [hlen, h2, bind, Except.bind]
      cases checkBias outputs bias <;> simp [pure, Except.pure]
  constructor
  · intro h
    split at h
    · cases h
    · next depth outputs weightsDepth hd hw =>
      split at h
      · cases h
      next hm =>
      obtain ⟨hx, rfl⟩ := (hbias _ _).1 h
      exact .fullyConnected hd hw (Option.isSome_iff_ne_none.2 (by simpa using hm)) hx
    · cases h
  · intro h
    cases h with
    | @fullyConnected _ _ _ depth outputs weightsDepth hd hw hm hx =>
      simp only [hd, hw]
      rw [if_neg (by simpa [Option.isSome_iff_ne_none] using hm)]
      exact (hbias _ _).2 ⟨hx, rfl⟩

end Rules

/-- Given layouts for its inputs, the rule of an operation answers what it yields. -/
theorem rule_eq_ok (htakes : c.node.op.takes c.node.inputs.length = true)
    (h : List.Forall₂ (fun a l => c.graph.layout a = .ok l) c.node.inputs ins) :
    rule c.node.tag c = .ok l ↔ Yields (c.inputValues? 1) c.node.op ins l := by
  have hin : ∀ {slot l}, ins[slot]? = some l → c.input slot = .ok l :=
    fun hs => (input_eq_ok_iff h).2 hs
  have hlen := h.length_eq
  rw [hlen] at htakes
  cases hop : c.node.op with
  | input d =>
    rw [hop] at htakes
    obtain rfl := List.eq_nil_of_length_eq_zero (by simpa [Operation.takes] using htakes)
    simp only [Node.tag, hop, Operation.tag, rule, source, Operation.declared?, Except.ok.injEq]
    constructor
    · rintro rfl; exact .input
    · rintro ⟨⟩; rfl
  | constant d xs =>
    rw [hop] at htakes
    obtain rfl := List.eq_nil_of_length_eq_zero (by simpa [Operation.takes] using htakes)
    simp only [Node.tag, hop, Operation.tag, rule, source, Operation.declared?, Except.ok.injEq]
    constructor
    · rintro rfl; exact .constant
    · rintro ⟨⟩; rfl
  | permute order =>
    rw [hop] at htakes
    obtain ⟨a, rfl⟩ := List.length_eq_one_iff.1 (by simpa [Operation.takes] using htakes)
    simp only [Node.tag, hop, Operation.tag, rule]
    exact permute_eq_ok hop (hin rfl)
  | crop offsets sizes =>
    rw [hop] at htakes
    obtain ⟨a, rfl⟩ := List.length_eq_one_iff.1 (by simpa [Operation.takes] using htakes)
    simp only [Node.tag, hop, Operation.tag, rule]
    exact crop_eq_ok hop (hin rfl)
  | reorder format element =>
    rw [hop] at htakes
    obtain ⟨a, rfl⟩ := List.length_eq_one_iff.1 (by simpa [Operation.takes] using htakes)
    simp only [Node.tag, hop, Operation.tag, rule]
    exact reorder_eq_ok hop (hin rfl)
  | reshape target copyZeros =>
    rw [hop] at htakes
    obtain _ | ⟨a, rest⟩ := ins
    · cases target <;> simp [Operation.takes] at htakes
    simp only [Node.tag, hop, Operation.tag, rule]
    exact reshape_eq_ok hop (hin rfl)
  | concatenation axis =>
    rw [hop] at htakes
    obtain _ | ⟨a, rest⟩ := ins
    · simp [Operation.takes] at htakes
    simp only [Node.tag, hop, Operation.tag, rule]
    refine concatenation_eq_ok hop (hin rfl) fun joined => joinInputs_eq_ok ?_ fun i l hi => ?_
    · simp [hlen]
    · exact hin (by simpa [Nat.add_comm 1 i] using hi)
  | fullyConnected =>
    rw [hop] at htakes
    obtain _ | ⟨a, _ | ⟨b, rest⟩⟩ := ins
    · simp [Operation.takes] at htakes
    · simp [Operation.takes] at htakes
    simp only [Node.tag, hop, Operation.tag, rule]
    refine fullyConnected_eq_ok (hin rfl) (hin rfl) hlen ?_
    obtain _ | ⟨bias, _ | ⟨x, xs⟩⟩ := rest
    · exact .inl rfl
    · exact .inr ⟨bias, rfl, hin rfl⟩
    · simp [Operation.takes] at htakes

/-- The standard table answers with the layout that an operation yields, if it is sound. -/
theorem infer_eq_ok (htakes : c.node.op.takes c.node.inputs.length = true)
    (h : List.Forall₂ (fun a l => c.graph.layout a = .ok l) c.node.inputs ins) :
    InferenceTable.standard.infer c = .ok l ↔
      Yields (c.inputValues? 1) c.node.op ins l ∧ l.isValid = true := by
  rw [← rule_eq_ok htakes h, ← Layout.validate_eq_ok_iff]
  simp only [InferenceTable.infer, InferenceTable.standard]
  cases rule c.node.tag c with
  | error e => simp [Except.mapError, bind, Except.bind]
  | ok l' =>
    simp only [Except.mapError, bind, Except.bind]
    cases hv : l'.validate with
    | error e =>
      simp only [reduceCtorEq, Except.ok.injEq, false_iff, not_and]
      rintro rfl
      simp [hv]
    | ok u =>
      simp only [pure, Except.pure, Except.ok.injEq]
      refine (and_iff_left_of_imp ?_).symm
      rintro rfl
      exact hv

/-- What a table answers, a rule of the table has answered. -/
theorem exists_rule_of_infer {t : InferenceTable} (h : t.infer c = .ok l) :
    ∃ rule, t c.node.tag = some rule ∧ rule c = .ok l := by
  simp only [InferenceTable.infer] at h
  split at h
  · cases h
  next rule ht =>
  obtain ⟨l', hrule, h⟩ := Result.bind_eq_ok.1 h
  obtain ⟨_, -, h⟩ := Result.bind_eq_ok.1 h
  obtain rfl := Except.ok.inj h
  refine ⟨rule, ht, ?_⟩
  cases hr : rule c with
  | error e =>
    rw [hr] at hrule
    cases hrule
  | ok a =>
    rw [hr] at hrule
    exact hrule

theorem rule_of_infer (h : InferenceTable.standard.infer c = .ok l) :
    rule c.node.tag c = .ok l := by
  obtain ⟨rule, ht, hrule⟩ := exists_rule_of_infer h
  obtain rfl := Option.some.inj ht
  exact hrule

section Answered

variable {a : Layout} {values? : Option (List Float)} (h : InferenceTable.standard.infer c = .ok l)

include h

theorem crop_of_infer {offsets sizes : List Nat} (hop : c.node.op = .crop offsets sizes)
    (ha : c.input 0 = .ok a) : Yields values? (.crop offsets sizes) [a] l := by
  have hrule := rule_of_infer h
  rw [Node.tag, hop] at hrule
  exact (crop_eq_ok hop ha).1 hrule

/-- A concatenation that the table answers has inputs, so it answers what the inputs yield. -/
theorem concatenation_of_infer {axis : Nat} (hop : c.node.op = .concatenation axis)
    (hins : List.Forall₂ (fun a l => c.graph.layout a = .ok l) c.node.inputs ins) :
    Yields (c.inputValues? 1) (.concatenation axis) ins l ∧ l.isValid = true := by
  have hrule := rule_of_infer h
  rw [Node.tag, hop] at hrule
  simp only [Operation.tag, rule, concatenation, hop] at hrule
  obtain ⟨first, hfirst, -⟩ := Result.bind_eq_ok.1 hrule
  have hpos : 0 < c.node.inputs.length :=
    hins.length_eq ▸ (List.getElem?_eq_some_iff.1 ((input_eq_ok_iff hins).1 hfirst)).1
  have htakes : c.node.op.takes c.node.inputs.length = true := by
    rw [hop]
    exact decide_eq_true hpos
  rw [← hop]
  exact (infer_eq_ok htakes hins).1 h

end Answered

theorem input_of_slot {slot : Nat} {a : NodeId} (hin : c.node.inputs[slot]? = some a)
    (hl : c.graph.layout a = .ok l) : c.input slot = .ok l := by
  obtain ⟨m, hm, hml⟩ := Graph.layout_eq_ok.1 hl
  simp [InferenceContext.input, hin, Graph.get, hm, hml, bind, Except.bind, pure, Except.pure]

theorem input_of_layout (hn : c.graph.node? c.node.id = some c.node) {slot : Nat} {a : NodeId}
    (hin : c.graph.input c.node.id slot = .ok a) (hl : c.graph.layout a = .ok l) :
    c.input slot = .ok l :=
  input_of_slot ((Graph.input_eq_ok hn).1 hin) hl

end BufferFusion.Infer
