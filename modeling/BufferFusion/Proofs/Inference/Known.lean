import BufferFusion.Proofs.Graph.Built
import BufferFusion.Proofs.Inference.Resolve

/-!
# What is known before execution

Inference before execution sees the dims that inputs declare, and inference during execution those
of the tensors that are bound. The second never contradicts the first.
-/
namespace BufferFusion.Graph

variable {g g' r : Graph} {id : NodeId} {tensors : List (NodeId × Tensor)} {values : InputValues}

/-- Where inference succeeds without a tensor and again with one for each input, every node ends up
with a layout of known dims that has the element type, the format and the rank of the layout before,
and all the sizes that were known before. -/
theorem Sound.resolve_refines (hs : g.Sound) {changed : Bool}
    (hi : InferenceTable.standard.inferGraph [] g = (g', .ok changed))
    (hr : g'.resolve tensors = (r, .ok values)) (hid : g.contains id = true) :
    ∃ l l', g'.layout id = .ok l ∧ r.layout id = .ok l' ∧ l'.Refines l ∧ l'.isStatic = true := by
  obtain ⟨hrelaid, hinferred⟩ := hs.inferGraph hi
  have hs' := hrelaid.wiring.sound hs
  have k := hs'.resolved hr
  have hlive : g'.contains id = true := by rwa [← hrelaid.wiring.contains_eq]
  obtain ⟨_, _, l, -, -, hl, -⟩ := hinferred id hlive
  have hlive' : r.contains id = true := by rwa [← k.relaid.wiring.contains_eq]
  obtain ⟨_, _, l', -, -, hl', -⟩ := k.inferred id hlive'
  refine ⟨l, l', hl, hl', ?_, k.static hl'⟩
  refine k.refines hs' hinferred.laid (.refl g') (fun x n m hn hm => ?_) hl hl'
  exact relaid_op_eq rfl hn hm

/-- Two matrices that each leave a dim open, joined along the rows and read as one row. -/
def openSample : Graph :=
  (((empty.place "x" (.input (.plain ⟨[.unknown, .known 2]⟩ .f32)) []).place "y"
    (.input (.plain ⟨[.known 1, .unknown]⟩ .f32)) []).place "joined" (.concatenation 0)
      [0, 1]).place "row" (.reshape (.pattern [1, -1]) false) [2]

theorem built_openSample : openSample.Built :=
  Built.empty.place rfl |>.place rfl |>.place rfl |>.place rfl

/-- Two rows for the first matrix, and two columns for both. -/
def openTensors : List (NodeId × Tensor) :=
  [(0, ⟨[2, 2], .f32, List.replicate 16 0⟩), (1, ⟨[1, 2], .f32, List.replicate 8 0⟩)]

theorem resolve_refines_openSample : ∃ l l',
    (InferenceTable.standard.inferGraph [] openSample).1.layout 3 = .ok l ∧
      ((InferenceTable.standard.inferGraph [] openSample).1.resolve openTensors).1.layout 3 = .ok l' ∧
        l'.Refines l ∧ l'.isStatic = true := by
  have hi : InferenceTable.standard.inferGraph [] openSample =
      ((InferenceTable.standard.inferGraph [] openSample).1, .ok true) := rfl
  exact @Sound.resolve_refines _ _ _ _ openTensors _ built_openSample.sound _ hi rfl rfl

end BufferFusion.Graph
