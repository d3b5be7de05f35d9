import BufferFusion.Proofs.Execution.Demoted
import BufferFusion.Proofs.Execution.Executed
import BufferFusion.Proofs.Execution.Transfer
import BufferFusion.Proofs.Pass.Compile

/-!
# Fused and unfused execution

A program compiled with fusion gives the outputs that it gives without. An execution without fusion
says what each node computes; in the fused program the same values are shown, in the buffers that
the nodes share, at every node that was not bypassed as an identity, and these include the outputs.
-/
namespace BufferFusion

open Graph

variable {g f r : Graph} {ρ : NodeId → NodeId} {values : InputValues} {v : NodeId → List Float}
  {w : Network} {e : Execution} {x : NodeId}

/-- Reorders between equal layouts read lanes that their conversion leaves as they are. -/
def Execution.KeepsLanes (e : Execution) : Prop :=
  ∀ {x n format element a l m lanes}, e.graph.node? x = some n → n.op = .reorder format element →
    e.graph.input x 0 = .ok a → e.graph.layout a = .ok l → e.graph.layout x = .ok l →
      e.bindings.memory? a = some m → m.read l = .ok lanes →
        ∀ lane ∈ lanes, element.convert lane = lane

/-- An execution that shows the values of its nodes. -/
structure Execution.Presents (e : Execution) (values : InputValues) (v : NodeId → List Float) :
    Prop where
  ready : Ready e.graph values
  evaluated : ∀ x, e.graph.contains x = true → e.graph.Evaluated values v x
  shows : ∀ x, e.graph.contains x = true → e.graph.Shows e.bindings x (v x)
  room : ∀ {x l}, e.graph.layout x = .ok l → l.HasRoom

namespace Execution.Presents

variable (k : e.Presents values v)

include k

theorem read {l : Layout} (hl : e.graph.layout x = .ok l) :
    ∃ m, e.bindings.memory? x = some m ∧ m.read l = .ok (v x) := by
  obtain ⟨n, hn, -⟩ := layout_eq_ok.1 hl
  have hx := contains_iff.2 ⟨n, hn⟩
  exact k.ready.read_of_shows (k.evaluated x hx) (k.room hl) hl (k.shows x hx)

/-- The values of a node are its output. -/
theorem output (hx : e.graph.contains x = true) : ∃ n o, e.graph.node? x = some n ∧
    e.output x = .ok o ∧ o.name = n.name ∧ e.graph.layout x = .ok o.layout ∧
      o.lanes = .ok (v x) := by
  obtain ⟨n, hn⟩ := contains_iff.1 hx
  obtain ⟨l, hl⟩ := k.ready.layout_ok hx
  obtain ⟨m, hm, hread⟩ := k.read hl
  exact ⟨n, _, hn, Execution.output_eq_ok hn hm hl, rfl, hl, hread⟩

end Execution.Presents

/-- What an execution of a graph without decisions presents. -/
theorem Graph.Fresh.presents (hf : g.Fresh) (hs : g.Sound) (hl : g.Laid)
    (hg : w.program.graph = g) (k : w.Runs r values e) :
    e.graph = r ∧ g.Resolved w.inputs values r ∧ ∃ v, e.Presents values v := by
  have hr := hs.resolved (hg ▸ k.resolve)
  have hfr := hf.relaid hr.relaid
  have hgraph : r = e.graph :=
    congrArg Prod.fst ((hfr.recheck (hr.relaid.wiring.sound hs)).symm.trans k.recheck)
  have hready := (compiled_of_fresh hs hl hf).ready hr k.recheck
  obtain ⟨plan, a, b, hplan, halloc, hrun⟩ := k.run
  obtain ⟨v, hv⟩ := hready.values_of_run (hgraph ▸ hfr.sharing) (by
    rintro x ⟨into, offset, hx⟩
    rw [← hgraph] at hx
    obtain ⟨n, hn, hst⟩ := Option.map_eq_some_iff.1 hx
    cases (hfr.state hn).symm.trans hst) (hready.housed hplan halloc) hrun
  refine ⟨hgraph.symm, hr, v, hready, fun x hx => (hv x hx).1, fun x hx => (hv x hx).2.1, ?_⟩
  intro x l hl
  obtain ⟨n, hn, -⟩ := layout_eq_ok.1 hl
  exact (hv x (contains_iff.2 ⟨n, hn⟩)).2.2 l hl

namespace Graph.Rerouted

variable {tensors : List (NodeId × Tensor)} {c : Graph} (k : Rerouted g f c r ρ tensors values)

include k

theorem exists_layouts : ∃ L : NodeId → Layout, ∀ x, g.contains x = true → r.layout x = .ok (L x) := by
  obtain ⟨L, hL⟩ := k.resolved.inferred.exists_layouts
  exact ⟨L, fun x hx => hL x (k.resolved.relaid.wiring.contains_eq x ▸ hx)⟩

variable (he : e.graph = r) (hp : e.Presents values v)

include he hp

/-- Conversions that keep what the execution reads keep the values. -/
theorem keeps_of_keepsLanes (hkeep : e.KeepsLanes) : r.Keeps v := by
  subst he
  intro x n format element a l l' hn hop ha hl hl' hbare
  obtain ⟨m, hm, hread⟩ := hp.read hl
  have hsame : l' = l := by
    rw [← Layout.bare_of_unpadded (k.resolved.inferred.layout hl).1 l.padding,
      ← Layout.bare_of_unpadded (k.resolved.inferred.layout hl').1 l'.padding]
    exact hbare
  exact hkeep hn hop ha hl (hsame ▸ hl') hm hread

/-- A network of the compiled graph executes, unless a size overflows, and presents the same values
in the same layouts. -/
theorem presents {u : Network} (hgraph : u.program.graph = c) (hinputs : u.inputs = tensors)
    (hlimit : u.allocator.limit = none) (hkeep : r.Keeps v) (hempty : c.EmptyPatterns r values)
    (hov : u.execute.2 ≠ .error (.fault .overflow)) : ∃ h values' e', u.Runs h values' e' ∧
      c.SameWiring e'.graph ∧ e'.Presents values' v ∧
        ∀ {x l}, e'.graph.layout x = .ok l → r.layout x = .ok l.bare := by
  subst he
  obtain ⟨L, hL⟩ := k.exists_layouts
  have hsingle : ∀ {x m copyZeros a}, e.graph.node? x = some m →
      m.op = .reshape (.fromInput 0) copyZeros → m.inputs[0]? = some a →
        (L a).shape.count = .ok (some 1) := by
    intro x m copyZeros a hm hop ha
    refine k.count_of_reshape hp.evaluated hm hop ha (hL a ?_)
    rw [k.resolved.relaid.wiring.contains_eq]
    exact hp.ready.sound.live (Feeds.of_input hm ha)
  obtain ⟨h, values', hresolve, hres, hfound⟩ := k.resolve_ok hL hsingle hempty
  rw [← hgraph, ← hinputs] at hresolve
  obtain ⟨g', report, done, hrecheck, -⟩ := k.compiled.recheck hres fun hover =>
    hov (Network.execute_of_recheck hresolve hover)
  obtain ⟨_, -, hr⟩ := k.compiled.rechecked hres hrecheck
  have w := hr.rechecking.wiring
  have hlayout : ∀ {x l}, g'.layout x = .ok l → e.graph.layout x = .ok l.bare := by
    intro x l hl
    obtain ⟨n, hn, -⟩ := layout_eq_ok.1 hl
    have hx : c.contains x = true := by
      rw [hres.relaid.wiring.contains_eq, ← w.contains_eq]
      exact contains_iff.2 ⟨n, hn⟩
    have hlive : g.contains x = true := by
      rw [k.shortcut.live_iff k.compiled] at hx
      exact hx.2
    rw [hL x hlive, ← hfound x hx]
    exact (hr.layout_resolved hres hl).1
  have kh := hres.informed.recheck hrecheck w
  have hready := k.compiled.ready hres hrecheck
  have heval := fun x hx => k.evaluated hp.evaluated hkeep kh hlayout hready.layout_ok (x := x) hx
  have hroom : ∀ {x l}, g'.layout x = .ok l → l.HasRoom := fun hl =>
    hready.hasRoom (fun hl => hp.room (hlayout hl)) hl
  obtain ⟨plan, hplan⟩ := (BufferPlan.ofGraph_onlyOverflow hready).eq_ok fun hover =>
    hov (Network.execute_of_plan hresolve hrecheck hover)
  obtain ⟨a, b, halloc⟩ := BufferPlan.allocateFrom_ok (b := .empty) hlimit fun buffer hb =>
    BufferPlan.elements_le (fun hl hf => by
      obtain ⟨_, n, -, hn, hle⟩ := hroom hl
      rwa [Except.ok.inj (hf.symm.trans hn)]) hplan hb
  obtain ⟨b', hrun, hshows⟩ := hready.run (k.keeps hp.evaluated hkeep kh hlayout) heval hroom
    (hready.housed hplan halloc)
  exact ⟨h, values', ⟨g', b', report⟩, ⟨hresolve, hrecheck, plan, a, b, hplan, halloc, hrun⟩,
    hres.relaid.wiring.trans w.symm, ⟨hready, heval, hshows, hroom⟩, hlayout⟩

/-- Two executions that present the same values in the same layouts have outputs that agree. -/
theorem outputs_agree {e' : Execution} {values' : InputValues} {outputs : List Output}
    (hwire : c.SameWiring e'.graph) (hp' : e'.Presents values' v)
    (hlayout : ∀ {x l}, e'.graph.layout x = .ok l → r.layout x = .ok l.bare)
    (hm : g.marked.Nodup) (houts : e.outputs = .ok outputs) :
    ∃ outputs', e'.outputs = .ok outputs' ∧ List.Forall₂ Output.Agrees outputs outputs' := by
  subst he
  have hwire₀ := k.resolved.relaid.wiring
  have hperm : e'.graph.outputs.Perm e.graph.outputs := by
    rw [← hwire.outputs_eq, k.compiled.wiring.outputs_eq, ← hwire₀.outputs_eq]
    exact (List.perm_ext_iff_of_nodup (k.shortcut.sound.outputs_nodup k.shortcut.marked)
      (k.sound.outputs_nodup hm)).2 k.shortcut.outputs
  refine Execution.outputs_agree hp'.ready.sound houts hperm fun x hx o ho => ?_
  obtain ⟨n, o₁, hn, ho₁, hname, hl, hlanes⟩ := hp.output (hp.ready.sound.live_of_mem_outputs hx)
  obtain rfl := Except.ok.inj (ho.symm.trans ho₁)
  obtain ⟨n', o', hn', ho', hname', hl', hlanes'⟩ :=
    hp'.output (hp'.ready.sound.live_of_mem_outputs (hperm.mem_iff.2 hx))
  refine ⟨o', ho', ?_, ?_, v x, hlanes, hlanes'⟩
  · obtain ⟨m', hm', -, hmname', -⟩ := hwire.symm.node hn'
    obtain ⟨-, m, hm, -, hmname, -⟩ := k.origin hm'
    obtain ⟨n₁, hn₁, -, hn₁name, -⟩ := hwire₀.node hm
    obtain rfl := Option.some.inj (hn.symm.trans hn₁)
    rw [hname', hname, ← hmname', hmname, hn₁name]
  · have := hlayout hl'
    rw [hl] at this
    rw [Except.ok.inj this]
    rfl

end Graph.Rerouted

/-- Inputs are found by their names in the compiled graph. -/
theorem Graph.Shortcut.input_kept {c : Graph} {name : String} {n : Node} {d : Layout}
    (k : Shortcut g f ρ) (hc : Compiled f c) (hname : g.names.lookup name = some x)
    (hn : g.node? x = some n) (hop : n.op = .input d) :
    c.names.lookup name = some x ∧ ∃ m, c.node? x = some m ∧ m.op = .input d := by
  have hx : ρ x = x := k.stays_of_input hn hop
  have hf : f.node? x = some (n.reroute ρ) := by rw [k.node?, if_pos hx, hn, Option.map_some]
  have hm := hc.op x
  rw [hf, Option.map_some] at hm
  obtain ⟨m, hm, hmop⟩ := Option.map_eq_some_iff.1 hm
  rw [hc.wiring.names]
  exact ⟨k.named hname hx, m, hm, hmop.trans hop⟩

/-- What compiles and executes without fusion compiles with it, unless a size overflows. Executed on
the same tensors the fused program answers the same outputs, unless a size overflows or a reshape
to no dims takes its pattern from a source with elements; with such a reshape it does not answer.
Reorders between equal layouts are assumed to read lanes that their conversion keeps. -/
theorem Graph.Built.fused_agrees (hb : g.Built) {dynamic remove remove' : Bool} {p : Program}
    (hp : Program.build ⟨false, dynamic, remove⟩ g = .ok p) {bindings : List (String × Tensor)}
    {w₁ : Network} (hw : (Network.ofProgram p).setInputs bindings = .ok w) {outputs : List Output}
    (hrun : w.execute = (w₁, .ok outputs)) (hlast : w₁.last = some e) (hkeep : e.KeepsLanes)
    (hov : Program.build ⟨true, dynamic, remove'⟩ g ≠ .error (.fault .overflow)) :
    ∃ p' u, Program.build ⟨true, dynamic, remove'⟩ g = .ok p' ∧
      (Network.ofProgram p').setInputs bindings = .ok u ∧
      (p'.graph.HollowPatterns e.graph → u.execute.2 ≠ .error (.fault .overflow) →
        ∃ outputs', u.execute.2 = .ok outputs' ∧ List.Forall₂ Output.Agrees outputs outputs') ∧
      (¬ p'.graph.HollowPatterns e.graph → ∀ outputs', u.execute.2 ≠ .ok outputs') := by
  obtain ⟨-, -, hrelaid, hinf⟩ := hb.build_unfused hp
  have hs := hrelaid.wiring.sound hb.sound
  obtain ⟨p', f, ρ, hp', hlimit, hcut, hc⟩ := hb.build_fused hp hov
  obtain ⟨u, hu, hin, hwprog, huprog, halloc⟩ :=
    Network.setInputs_congr (w := .ofProgram p) (u := .ofProgram p') rfl
      (fun hname hn hop => hcut.input_kept hc hname hn hop) hw
  obtain ⟨r, values, e₁, hruns, houts, hlast₁⟩ := Network.runs_of_execute hrun
  obtain rfl := Option.some.inj (hlast.symm.trans hlast₁)
  obtain ⟨hgraph, hr, v, hpres⟩ :=
    (hb.fresh.relaid hrelaid).presents hs hinf.laid (congrArg Program.graph hwprog) hruns
  have k : Rerouted p.graph f p'.graph r ρ w.inputs values := ⟨hs, hinf.laid, hcut, hc, hr⟩
  refine ⟨p', u, hp', hu, fun hhollow hov' => ?_, fun hnot outputs' hok => hnot ?_⟩
  · rw [hgraph] at hhollow
    obtain ⟨h, values', e', hruns', hwire, hpres', hlayout⟩ := k.presents hgraph hpres
      (congrArg Program.graph huprog) hin (by rw [halloc]; exact hlimit)
      (k.keeps_of_keepsLanes hgraph hpres hkeep)
      ((k.hollowPatterns_iff (hgraph ▸ hpres.evaluated)).1 hhollow) hov'
    rw [hruns'.execute]
    exact k.outputs_agree hgraph hpres hwire hpres' hlayout
      (hrelaid.wiring.marked ▸ hb.marked_nodup) houts
  · obtain ⟨h, values', e', hruns', -⟩ :=
      Network.runs_of_execute (Prod.ext rfl hok : u.execute = (u.execute.1, .ok outputs'))
    have hres := hruns'.resolve
    rw [hin, huprog] at hres
    rw [hgraph, k.hollowPatterns_iff (hgraph ▸ hpres.evaluated)]
    exact k.emptyPatterns_of_resolved (hc.sound'.resolved hres)

/-! ### Samples -/

/-- A tensor of zeros for the sample's input. -/
def sampleTensor : Tensor := ⟨[2, 2], .f32, List.replicate 16 0⟩

/-- The sample compiled without fusion. -/
def unfusedProgram : Program := ⟨inferredSample, ⟨false, true, true⟩, none⟩

/-- A network of the sample with its input bound. -/
def sampleNetwork (p : Program) : Network := { Network.ofProgram p with inputs := [(0, sampleTensor)] }

theorem Execution.keepsLanes_of_tags (h : (e.graph.nodes.all fun n => n.tag != .reorder) = true) :
    e.KeepsLanes := by
  intro x n format element a l m lanes hn hop
  have := List.all_eq_true.1 h n (mem_nodes.2 ⟨x, hn⟩)
  simp [Node.tag, hop, Operation.tag] at this

theorem fused_agrees_sample : ∃ outputs outputs',
    (sampleNetwork unfusedProgram).execute.2 = .ok outputs ∧
      (sampleNetwork sampleProgram).execute.2 = .ok outputs' ∧
        List.Forall₂ Output.Agrees outputs outputs' := by
  obtain ⟨p', u, hp', hu, hagree, -⟩ := Graph.Built.fused_agrees built_sample
    (show Program.build ⟨false, true, true⟩ sample = .ok unfusedProgram from rfl)
    (show (Network.ofProgram unfusedProgram).setInputs [("x", sampleTensor)] =
      .ok (sampleNetwork unfusedProgram) from rfl) rfl rfl
    (Execution.keepsLanes_of_tags (by decide +kernel))
    (show Program.build .standard sample ≠ .error (.fault .overflow) by rintro ⟨⟩)
  obtain rfl := Except.ok.inj (hp'.symm.trans
    (show Program.build .standard sample = .ok sampleProgram from rfl))
  obtain rfl := Except.ok.inj (hu.symm.trans
    (show (Network.ofProgram sampleProgram).setInputs [("x", sampleTensor)] =
      .ok (sampleNetwork sampleProgram) from rfl))
  have hok : (sampleNetwork sampleProgram).execute.2.isOk = true := by decide +kernel
  have hpatterns : (sampleProgram.graph.nodes.all fun n => n.inputs[1]?.isNone ||
      n.tag != .reshape) = true := by decide +kernel
  have hhollow : ∀ r, sampleProgram.graph.HollowPatterns r := by
    intro r x n copyZeros a s l hn hop ha
    have := List.all_eq_true.1 hpatterns n (mem_nodes.2 ⟨x, hn⟩)
    simp [Node.tag, Operation.tag, hop, ha] at this
  obtain ⟨outputs', ho, h⟩ := hagree (hhollow _) fun hover => by
    rw [hover] at hok
    cases hok
  exact ⟨_, outputs', rfl, ho, h⟩

/-- A permute that does nothing stands between a pattern of one dim and a reshape to none. -/
def hiddenSample : Graph :=
  (((empty.place "x" (.input (.plain (.ofSizes [1]) .f32)) []).place "q"
    (.input (.plain (.ofSizes [1]) .i64)) []).place "s" (.permute [0]) [1]).place "y"
      (.reshape (.fromInput 0) false) [0, 2]

def hiddenTensors : List (String × Tensor) :=
  [("x", ⟨[1], .f32, List.replicate 4 0⟩), ("q", ⟨[1], .i64, List.replicate 8 0⟩)]

theorem built_hiddenSample : hiddenSample.Built :=
  Built.empty.place rfl |>.place rfl |>.place rfl |>.place rfl

/-- Without fusion the sample executes. With fusion the permute is removed, and the reshape finds one
value where its pattern has none. -/
theorem fused_fails_hiddenSample : hiddenSample.Built ∧ ∃ p w w₁ outputs e,
    Program.build ⟨false, true, true⟩ hiddenSample = .ok p ∧
      (Network.ofProgram p).setInputs hiddenTensors = .ok w ∧ w.execute = (w₁, .ok outputs) ∧
        w₁.last = some e ∧ e.KeepsLanes ∧ ∃ p' u,
          Program.build .standard hiddenSample = .ok p' ∧
            (Network.ofProgram p').setInputs hiddenTensors = .ok u ∧
              u.execute.2 = .error (.atNode .reshape "y" (.misfit (.patternLength 1 0))) :=
  ⟨built_hiddenSample, _, _, _, _, _, rfl, rfl, rfl, rfl,
    Execution.keepsLanes_of_tags (by decide +kernel), _, _, rfl, rfl, rfl⟩

end BufferFusion
