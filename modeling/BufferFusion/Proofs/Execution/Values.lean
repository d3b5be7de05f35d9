import BufferFusion.Execution.Run
import BufferFusion.Proofs.Graph.Wiring
import BufferFusion.Proofs.Memory.Contents

/-!
# Values of nodes

The values that the nodes of a graph stand for, apart from the memories they lie in. A node's values
are those its kernel answers when it reads those of its inputs. Memories that show the values of the
inputs give the kernel what it reads there.
-/
namespace BufferFusion

open Graph

variable {g : Graph} {b : Bindings} {values : InputValues} {v : NodeId → List Float}
  {n m : Node} {l l' : Layout} {x a : NodeId} {xs : List Float}

namespace Run

/-- What a node's kernel computes, where `read` answers for its inputs. -/
def evaluate (read : Nat → Result Logical) (inputs : InputValues) (n : Node) (l : Layout) :
    Result (List Float) :=
  match n.op with
  | .input _ =>
    match inputs.lookup n.id with
    | some values => .ok values
    | none => .error (.inputNotSet n.name)
  | .constant _ values => .ok values
  | .permute order => do Kernel.permute (← read 0) order
  | .reshape .. => do return (← read 0).values.toList
  | .concatenation axis => do
    let parts ← (List.range n.inputs.length).mapM read
    Kernel.concatenate parts axis (← l.sizes)
  | .crop offsets sizes => do Kernel.crop (← read 0) offsets sizes
  | .reorder _ element => do return (← read 0).values.toList.map element.convert
  | .fullyConnected => do
    let bias ← if 2 < n.inputs.length then some <$> read 2 else pure none
    Kernel.fullyConnected (← read 0) (← read 1) (bias.map (·.values.toList))

theorem compute_eq (g : Graph) (b : Bindings) (inputs : InputValues) (n : Node) (l : Layout) :
    compute g b inputs n l = evaluate (readInput g b n.id) inputs n l := rfl

theorem evaluate_input_eq_ok {read : Nat → Result Logical} {d : Layout} (hn : n.op = .input d) :
    evaluate read values n l = .ok xs ↔ values.lookup n.id = some xs := by
  simp only [evaluate, hn]
  cases values.lookup n.id <;> simp

/-- A kernel answers the same wherever its inputs are read with the same answers. -/
theorem evaluate_mono {read read' : Nat → Result Logical}
    (hr : ∀ slot lv, read slot = .ok lv → read' slot = .ok lv) (hid : m.id = n.id)
    (hin : m.inputs.length = n.inputs.length) (hop : m.op.Alike n.op)
    (hl : ∀ sizes, l.sizes = .ok sizes → l'.sizes = .ok sizes)
    (h : evaluate read values n l = .ok xs) : evaluate read' values m l' = .ok xs := by
  rcases hop.eq_or_input with he | ⟨d, d', hm, hn⟩
  · cases hn : n.op with
    | input d =>
      rw [evaluate_input_eq_ok hn] at h
      rwa [evaluate_input_eq_ok (he.trans hn), hid]
    | constant d ys =>
      simp only [evaluate, he, hn] at h ⊢
      exact h
    | permute | reshape | crop | reorder =>
      simp only [evaluate, he, hn] at h ⊢
      exact Result.bind_mono (hr 0) (fun _ h => h) h
    | concatenation axis =>
      simp only [evaluate, he, hn, hin] at h ⊢
      refine Result.bind_mono (fun parts hparts => ?_)
        (fun _ => Result.bind_mono hl fun _ h => h) h
      exact Result.mapM_eq_ok.2 ((Result.mapM_eq_ok.1 hparts).imp fun slot lv => hr slot lv)
    | fullyConnected =>
      simp only [evaluate, he, hn, hin] at h ⊢
      by_cases hlen : 2 < n.inputs.length
      · simp only [if_pos hlen] at h ⊢
        refine Result.bind_mono (fun bias hbias => ?_)
          (fun _ => Result.bind_mono (hr 0) fun _ => Result.bind_mono (hr 1) fun _ h => h) h
        obtain ⟨lv, hlv, rfl⟩ := Result.map_eq_ok.1 hbias
        exact Result.map_eq_ok.2 ⟨lv, hr 2 lv hlv, rfl⟩
      · simp only [if_neg hlen] at h ⊢
        exact Result.bind_mono (fun _ h => h)
          (fun _ => Result.bind_mono (hr 0) fun _ => Result.bind_mono (hr 1) fun _ h => h) h
  · rw [evaluate_input_eq_ok hn] at h
    rwa [evaluate_input_eq_ok hm, hid]

/-- Of the values given, a node looks at its own. -/
theorem evaluate_congr {read : Nat → Result Logical} {values' : InputValues}
    (h : values'.lookup n.id = values.lookup n.id) :
    evaluate read values' n l = evaluate read values n l := by
  unfold evaluate
  rw [h]

end Run

namespace Graph

/-- An input of a node as a kernel reads it, where the nodes have the values `v`. -/
def reads (g : Graph) (v : NodeId → List Float) (id : NodeId) (slot : Nat) : Result Logical := do
  let a ← g.input id slot
  let sizes ← (← g.layout a).sizes
  Size.reserve 8 (← Size.product sizes)
  return { values := (v a).toArray, sizes }

theorem reads_eq_ok {slot : Nat} {lv : Logical} : g.reads v x slot = .ok lv ↔ ∃ a l sizes count,
    g.input x slot = .ok a ∧ g.layout a = .ok l ∧ l.shape.sizes? = some sizes ∧
      Size.product sizes = .ok count ∧ Size.reserve 8 count = .ok () ∧
        lv = ⟨(v a).toArray, sizes⟩ := by
  simp only [reads, Result.bind_eq_ok, Layout.sizes_eq_ok]
  constructor
  · rintro ⟨a, ha, l, hl, sizes, hs, count, hc, u, hr, h⟩
    exact ⟨a, l, sizes, count, ha, hl, hs, hc, hr, (Except.ok.inj h).symm⟩
  · rintro ⟨a, l, sizes, count, ha, hl, hs, hc, hr, rfl⟩
    exact ⟨a, ha, l, hl, sizes, hs, count, hc, (), hr, rfl⟩

/-- The node's memory holds the values in its layout. -/
def Shows (g : Graph) (b : Bindings) (x : NodeId) (xs : List Float) : Prop :=
  ∃ m l, b.memory? x = some m ∧ g.layout x = .ok l ∧ m.Holds l xs

/-- The node's values are what its kernel answers, and they fill its layout. -/
def Evaluated (g : Graph) (values : InputValues) (v : NodeId → List Float) (x : NodeId) : Prop :=
  ∃ n l sizes, g.node? x = some n ∧ g.layout x = .ok l ∧ l.shape.sizes? = some sizes ∧
    Size.product sizes = .ok (v x).length ∧ Run.evaluate (g.reads v x) values n l = .ok (v x)

/-- The layout has addresses, and a footprint. -/
def Addressable (g : Graph) (x : NodeId) : Prop :=
  ∃ l a n, g.layout x = .ok l ∧ l.isValid = true ∧ l.addressing = .ok a ∧ l.footprint = .ok n

theorem readInput_eq_ok {slot : Nat} {lv : Logical} : Run.readInput g b x slot = .ok lv ↔
    ∃ a l m xs sizes, g.input x slot = .ok a ∧ g.layout a = .ok l ∧ b.memory? a = some m ∧
      m.read l = .ok xs ∧ l.shape.sizes? = some sizes ∧ lv = ⟨xs.toArray, sizes⟩ := by
  simp only [Run.readInput, Result.bind_eq_ok]
  constructor
  · rintro ⟨a, ha, l, hl, h⟩
    cases hm : b.memory? a with
    | none =>
      rw [hm] at h
      cases h
    | some m =>
      rw [hm] at h
      obtain ⟨xs, hxs, h⟩ := Result.bind_eq_ok.1 h
      obtain ⟨sizes, hs, h⟩ := Result.bind_eq_ok.1 h
      exact ⟨a, l, m, xs, sizes, ha, hl, hm, hxs, Layout.sizes_eq_ok.1 hs, (Except.ok.inj h).symm⟩
  · rintro ⟨a, l, m, xs, sizes, ha, hl, hm, hxs, hs, rfl⟩
    refine ⟨a, ha, l, hl, ?_⟩
    rw [hm]
    exact Result.bind_eq_ok.2 ⟨xs, hxs, Result.bind_eq_ok.2 ⟨sizes, Layout.sizes_eq_ok.2 hs, rfl⟩⟩

/-- A kernel reads the values that the memories of its inputs show. -/
theorem readInput_iff_reads {slot : Nat} (hshow : ∀ a, g.input x slot = .ok a →
    g.Shows b a (v a) ∧ g.Addressable a) {lv : Logical} :
    Run.readInput g b x slot = .ok lv ↔ g.reads v x slot = .ok lv := by
  rw [readInput_eq_ok, reads_eq_ok]
  constructor
  · rintro ⟨a, l, m, xs, sizes, ha, hl, hm, hxs, hs, rfl⟩
    obtain ⟨⟨m', l', hm', hl', hholds⟩, l'', -, -, hl'', hv, -, -⟩ := hshow a ha
    obtain rfl := Except.ok.inj (hl.symm.trans hl')
    obtain rfl := Except.ok.inj (hl.symm.trans hl'')
    obtain rfl := Option.some.inj (hm.symm.trans hm')
    obtain rfl := hholds.unique (Memory.holds_of_read hv hxs)
    obtain ⟨sizes', _, count, hs', -, hc, hr, -⟩ := Memory.read_eq_ok.1 hxs
    obtain rfl := Option.some.inj (hs.symm.trans hs')
    exact ⟨a, l, sizes, count, ha, hl, hs, hc, hr, rfl⟩
  · rintro ⟨a, l, sizes, count, ha, hl, hs, hc, hr, rfl⟩
    obtain ⟨⟨m, l', hm, hl', hholds⟩, l'', addressing, k, hl'', hv, haddr, hf⟩ := hshow a ha
    obtain rfl := Except.ok.inj (hl.symm.trans hl')
    obtain rfl := Except.ok.inj (hl.symm.trans hl'')
    exact ⟨a, l, m, v a, sizes, ha, hl, hm,
      Memory.read_of_holds hv hf haddr hs hc hr hholds, hs, rfl⟩

end Graph
end BufferFusion
