import BufferFusion.Program
import BufferFusion.Proofs.Fusion.Settled
import BufferFusion.Proofs.Inference.Identity

/-!
# Compiled graphs

What a compilation leaves: a sound graph with inferred layouts, in which fusion has placed nodes so
that every decision still holds and carries its assumption.
-/
namespace BufferFusion

open Graph Pass

variable {b g g' : Graph} {id x : NodeId} {done : List NodeId}

theorem Pass.Accepted.placed {p : Proposal} (a : Accepted g id p g') : g.Placed id p g' :=
  ⟨a.judged, a.wiring, a.state, a.layout⟩

theorem Pass.Accepted.inputs_nodup {p : Proposal} (a : Accepted g id p g') (n : Node) (axis : Nat)
    (hn : g.node? id = some n) (hop : n.op = .concatenation axis) : n.inputs.Nodup := by
  obtain ⟨m, hm, ⟨into, input, output, hv⟩ | ⟨axis', output, extents, hc⟩⟩ := judge_eligible a.judged
  all_goals obtain rfl := Option.some.inj (hn.symm.trans hm)
  · exact absurd hop (hv.reason.not_concatenation axis)
  · rw [← hc.members]
    exact a.once

/-- A graph in the middle of fusion that started from `b`. -/
structure Fused (b g : Graph) (done : List NodeId) : Prop where
  fusing : Fusing b g done
  closed : ∀ {a c}, b.Feeds a c → c ∈ done → a ∈ done
  padded : Padded b g done
  /-- Decisions stand, and a node carries the assumption of its own. -/
  stands : ∀ {x into offset}, g.state? x = some (.optimized into offset) → x ∈ done ∧
    ∃ n p, g.node? x = some n ∧ n.assumption = p.assumption ∧ g.Stands x p

theorem closed_cons (hc : ∀ {a c}, b.Feeds a c → c ∈ done → a ∈ done)
    (hready : ∀ a, b.Feeds a id → a ∈ done) {a c : NodeId} (hf : b.Feeds a c)
    (hcd : c ∈ id :: done) : a ∈ id :: done := by
  rcases List.mem_cons.1 hcd with rfl | hcd
  · exact List.mem_cons_of_mem _ (hready a hf)
  · exact List.mem_cons_of_mem _ (hc hf hcd)

namespace Fused

variable (k : Fused b g done)

include k

/-- Skipping a node changes nothing. -/
theorem skip (hready : ∀ a, b.Feeds a id → a ∈ done) : Fused b g (id :: done) where
  fusing := ⟨k.fusing.wiring, k.fusing.linked, k.fusing.placed,
    fun e he => List.mem_cons_of_mem _ (k.fusing.touched e he)⟩
  closed := closed_cons k.closed hready
  padded := k.padded.congr (.refl g) (fun _ => rfl) (fun _ _ => rfl) id
  stands := fun hx => (k.stands hx).imp_left (List.mem_cons_of_mem _)

theorem decide (hb : b.Sound) (hready : ∀ a, b.Feeds a id → a ∈ done) (hnew : id ∉ done)
    {s : FusionState} (hs : s.isOptimized = false) (hfusing : Fusing b (g.setState id s) (id :: done)) :
    Fused b (g.setState id s) (id :: done) where
  fusing := hfusing
  closed := closed_cons k.closed hready
  padded := by
    refine k.padded.congr (sameWiring_setState ..).symm (fun x => layout_setState ..)
      (fun x hx => ?_) id
    have hne : id ≠ x := fun he => hnew (he ▸ hx)
    rw [state?_setState, if_neg hne]
  stands := by
    intro x into offset hx
    have hne : id ≠ x := by
      rintro rfl
      rw [state?_setState, if_pos rfl] at hx
      obtain ⟨_, -, hx⟩ := Option.map_eq_some_iff.1 hx
      rw [hx] at hs
      cases hs
    rw [state?_setState, if_neg hne] at hx
    obtain ⟨hd, n, p, hn, ha, hst⟩ := k.stands hx
    refine ⟨List.mem_cons_of_mem _ hd, n, p, ?_, ha, ?_⟩
    · rw [node?_setState, if_neg hne, hn]
    · exact hst.congr (k.fusing.wiring.symm.sound hb) (sameWiring_setState ..).symm
        (layout_setState ..) fun a _ => layout_setState ..

theorem accept (hb : b.Sound) (hready : ∀ a, b.Feeds a id → a ∈ done) (hnew : id ∉ done)
    {p : Proposal} (a : Accepted g id p g') (hfusing : Fusing b g' (id :: done)) :
    Fused b g' (id :: done) := by
  have hs := k.fusing.wiring.symm.sound hb
  refine ⟨hfusing, closed_cons k.closed hready, k.padded.place hs hnew a.placed,
    fun {x into offset} hx => ?_⟩
  by_cases hid : x = id
  · subst hid
    obtain ⟨n, hn, -⟩ := judge_eligible a.judged
    obtain ⟨m, hm, -⟩ := a.wiring.symm.node hn
    have ha := a.assumption x
    rw [node?_setAssumption, if_pos rfl, hn, hm] at ha
    exact ⟨List.mem_cons_self, m, p, hm, Option.some.inj ha,
      a.placed.stands hs a.inputs_nodup⟩
  · rw [a.placed.state_eq hid] at hx
    obtain ⟨hd, n, q, hn, hq, hst⟩ := k.stands hx
    obtain ⟨m, hm, -⟩ := a.wiring.symm.node hn
    have ha := a.assumption x
    rw [node?_setAssumption, if_neg (Ne.symm hid), hn, hm] at ha
    refine ⟨List.mem_cons_of_mem _ hd, m, q, hm, (Option.some.inj ha).trans hq, ?_⟩
    exact a.placed.stands_of_ne hs hst hid ⟨into, offset, hx⟩
      fun hf => hnew (k.closed (k.fusing.wiring.feeds hf) hd)

theorem step (hb : b.Sound) (hnew : id ∉ done) (hready : ∀ a, b.Feeds a id → a ∈ done)
    {s : FusionState} (hst : g.state? id = some s) (hterm : s.isTerminal = false)
    (step : FuseStep g id g') : Fused b g' (id :: done) := by
  have hfusing := k.fusing.step hb hnew hready hst hterm step
  cases step with
  | stop => exact k.skip hready
  | decide hs => exact k.decide hb hready hnew hs hfusing
  | accept a => exact k.accept hb hready hnew a hfusing

end Fused

/-- A graph where nothing is decided is the start of fusion. -/
theorem fused_of_unanalyzed (hst : ∀ {x n}, g.node? x = some n → n.state = .unanalyzed)
    (he : g.sharing.edges = [])
    (hl : ∀ {x l}, g.layout x = .ok l → l.padding = .zero l.rank ∧ l.isValid = true) :
    Fused g g [] where
  fusing := ⟨.refl g, linked_of_fresh hst he, fun c => by simp [PlacedAt, he], by simp [he]⟩
  closed := by simp
  padded := .initial hl
  stands := by
    intro x into offset hx
    obtain ⟨n, hn, hx⟩ := Option.map_eq_some_iff.1 hx
    rw [hst hn] at hx
    cases hx

theorem fused_of_fresh (hf : g.Fresh) (hl : g.Laid) : Fused g g [] :=
  fused_of_unanalyzed hf.state hf.sharing hl.layout

theorem fused_fuseAlong (hs : g.Sound) (hf : g.Fresh) (hl : g.Laid) :
    ∃ done, Fused g (fuseAlong .standard g.order g).1 done := by
  refine fuseAlong_induction (h := g) (I := Fused g) ?_ ?_ hs.ordered
    (fused_of_fresh hf hl)
  · exact fun k hready _ => k.skip hready
  · exact fun k hnew hready hst hterm step => k.step hs hnew hready hst hterm step

/-! ### Operations -/

theorem Graph.op_setState (g : Graph) (id : NodeId) (s : FusionState) (x : NodeId) :
    ((g.setState id s).node? x).map (·.op) = (g.node? x).map (·.op) := by
  rw [node?_setState]
  split <;> simp [Function.comp_def]

theorem Graph.op_setAssumption (g : Graph) (id : NodeId) (a : Option Assumption) (x : NodeId) :
    ((g.setAssumption id a).node? x).map (·.op) = (g.node? x).map (·.op) := by
  rw [node?_setAssumption]
  split <;> simp [Function.comp_def]

theorem Graph.op_setLayouts (ls : List (NodeId × Layout)) (g : Graph) (x : NodeId) :
    ((g.setLayouts ls).node? x).map (·.op) = (g.node? x).map (·.op) := by
  induction ls generalizing g with
  | nil => rfl
  | cons q ls ih =>
    refine (ih _).trans ?_
    rw [node?_setLayout]
    split <;> simp [Function.comp_def]

theorem Pass.op_fuseNode (t : FusionRules) (g : Graph) (id x : NodeId) :
    ((fuseNode t g id).1.node? x).map (·.op) = (g.node? x).map (·.op) := by
  simp only [fuseNode]
  split
  · rfl
  · exact op_setState ..
  · split
    · next hp =>
      obtain ⟨rfl, -⟩ := Sharing.propose_eq_ok hp
      rw [Pass.accept, op_setState, op_setAssumption, op_setLayouts, node?_setSharing, op_setState]
    · split
      · rw [op_setState, op_setState]
      · exact op_setState ..

/-- Fusion changes no operation. -/
theorem op_fuseAlong (t : FusionRules) (ids : List NodeId) (g : Graph) (x : NodeId) :
    ((fuseAlong t ids g).1.node? x).map (·.op) = (g.node? x).map (·.op) := by
  induction ids generalizing g with
  | nil => rfl
  | cons id ids ih =>
    simp only [fuseAlong]
    split
    · exact ih g
    split
    · exact ih g
    have hnode := Pass.op_fuseNode t g id x
    split
    · next hf => rwa [hf] at hnode
    · next hf =>
      rw [hf] at hnode
      exact (ih _).trans hnode

/-- A compiled graph, with the graph that fusion started from. -/
structure Compiled (b g : Graph) : Prop where
  sound : b.Sound
  laid : b.Laid
  fresh : b.Fresh
  fused : ∃ done, Fused b g done
  op : ∀ x, (g.node? x).map (·.op) = (b.node? x).map (·.op)

theorem compiled_of_fresh (hs : g.Sound) (hl : g.Laid) (hf : g.Fresh) : Compiled g g :=
  ⟨hs, hl, hf, ⟨[], fused_of_fresh hf hl⟩, fun _ => rfl⟩

theorem runInference_eq_ok (hs : g.Sound) {config : BuildConfig} {changed : Bool}
    (h : runInference .standard config g = (g', .ok changed)) : g.Relaid g' ∧ g'.Inferred [] := by
  simp only [runInference] at h
  cases hi : InferenceTable.standard.inferGraph [] g with
  | mk g₁ r =>
    rw [hi] at h
    obtain ⟨rfl, hr⟩ := Prod.mk.inj h
    obtain ⟨changed', rfl, -⟩ := Result.bind_eq_ok.1 hr
    exact hs.inferGraph hi

/-- Removing identities keeps what fusion starts from. -/
theorem removeAlong_keeps (hs : g.Sound) (hl : g.Laid) (hf : g.Fresh) (ids : List NodeId) :
    (removeAlong ids g).1.Sound ∧ (removeAlong ids g).1.Laid ∧ (removeAlong ids g).1.Fresh := by
  refine removeAlong_induction (I := fun g => g.Sound ∧ g.Laid ∧ g.Fresh) ?_ (fun h => h.1)
    ⟨hs, hl, hf⟩ ids
  rintro g g' old new n ⟨hs, hl, hf⟩ hb hrep
  have hr := hs.replaced hrep
  exact ⟨hr.sound hs, hr.laid hl hb.same (hb.given?_eq_none rfl), hf.replaced hr⟩

theorem compiled_of_fuseAlong (hs : g.Sound) (hl : g.Laid) (hf : g.Fresh) {r : Result Bool}
    (hfuse : fuseAlong .standard g.order g = (g', r)) : Compiled g g' := by
  obtain rfl : (fuseAlong .standard g.order g).1 = g' := by rw [hfuse]
  exact ⟨hs, hl, hf, fused_fuseAlong hs hf hl, op_fuseAlong .standard g.order g⟩

theorem runPasses_cons {config : BuildConfig} {pass : Pass} {passes : List Pass}
    (h : runPasses config (pass :: passes) g = .ok g') :
    ∃ g₁ changed, pass.run config g = (g₁, .ok changed) ∧ runPasses config passes g₁ = .ok g' := by
  simp only [runPasses] at h
  split at h
  · next g₁ changed hp => exact ⟨g₁, changed, hp, h⟩
  · cases h

/-- The passes of a configuration are in the order of their stages. -/
theorem Program.byStage_passes (config : BuildConfig) :
    byStage (passes config ++ []) = passes config := by
  obtain ⟨o, d, r⟩ := config
  cases o <;> cases r <;> rfl

/-- A compilation infers the graph and rids it of identities, and then fuses it if the configuration
asks for that. -/
theorem Graph.Built.fusion (hb : g.Built) {config : BuildConfig} {p : Program}
    (hp : Program.build config g = .ok p) : ∃ b, Compiled b p.graph ∧
      (p.graph = b ∨ ∃ fused, fuseAlong .standard b.order b = (p.graph, .ok fused)) := by
  obtain ⟨f, hf, hp⟩ := Result.bind_eq_ok.1 hp
  obtain rfl := Except.ok.inj hp
  rw [Program.byStage_passes, Program.passes] at hf
  obtain ⟨g₁, _, hi, hf⟩ := runPasses_cons hf
  obtain ⟨r, hinf⟩ := runInference_eq_ok hb.sound hi
  have hs₁ := r.wiring.sound hb.sound
  have hf₁ := hb.fresh.relaid r
  split at hf
  swap
  · obtain rfl := Except.ok.inj hf
    exact ⟨g₁, compiled_of_fresh hs₁ hinf.laid hf₁, .inl rfl⟩
  split at hf
  · obtain ⟨g₂, _, hrem, hf⟩ := runPasses_cons hf
    obtain ⟨g₃, _, hfuse, hf⟩ := runPasses_cons hf
    obtain rfl := Except.ok.inj hf
    obtain ⟨hs₂, hl₂, hf₂⟩ := removeAlong_keeps hs₁ hinf.laid hf₁ g₁.order
    have hrem : removeAlong g₁.order g₁ = (g₂, _) := hrem
    rw [hrem] at hs₂ hl₂ hf₂
    exact ⟨g₂, compiled_of_fuseAlong hs₂ hl₂ hf₂ hfuse, .inr ⟨_, hfuse⟩⟩
  · obtain ⟨g₃, _, hfuse, hf⟩ := runPasses_cons hf
    obtain rfl := Except.ok.inj hf
    exact ⟨g₁, compiled_of_fuseAlong hs₁ hinf.laid hf₁ hfuse, .inr ⟨_, hfuse⟩⟩

/-- What a compilation of a graph that was only built answers. -/
theorem Graph.Built.compiled (hb : g.Built) {config : BuildConfig} {p : Program}
    (hp : Program.build config g = .ok p) : ∃ b, Compiled b p.graph :=
  (hb.fusion hp).imp fun _ h => h.1

end BufferFusion
