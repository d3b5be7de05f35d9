import BufferFusion.Proofs.Execution.Revisit

/-!
# The decisions that rechecking takes back

A recheck of a compiled graph succeeds unless a size overflows. It looks at every optimized node,
and demotes exactly those whose decision fails on the concrete shapes.
-/
namespace BufferFusion

open Graph Fuse

variable {b f r g g' : Graph} {tensors : List (NodeId × Tensor)} {values : InputValues}
  {done : List NodeId} {id x : NodeId}

namespace Revisiting

variable (k : Revisiting b f r g tensors values done)

include k

/-- The rule's verdict on an optimized node, which compiled without an assumption does not fail. -/
theorem verdict (hnew : id ∉ done) (hready : ∀ a, r.Feeds a id → a ∈ done) {into : NodeId}
    {offset : Nat} (hst : g.state? id = some (.optimized into offset)) :
    Verdict (FusionRules.standard.judge g id) (g.Fails id) ∧
      ∀ n₀, f.node? id = some n₀ → n₀.assumption = none → ¬ g.Fails id := by
  obtain ⟨n₀, p, hn₀, ha, hstands⟩ := k.compiled.stands ((k.state?_f hnew).trans hst)
  suffices Verdict (FusionRules.standard.judge g id) (g.Fails id) ∧
      (p.assumption = none → ¬ g.Fails id) by
    refine ⟨this.1, fun m hm hnone => this.2 ?_⟩
    obtain rfl := Option.some.inj (hn₀.symm.trans hm)
    exact ha.symm.trans hnone
  cases hstands with
  | @view n into' input₀ output₀ hn hv hinst =>
    obtain ⟨n', input, output, now⟩ := k.viewNow hnew hready hn hv
    refine now.verdict ?_
    rw [now.op]
    have := hv.reason
    rwa [k.compiled.sound'.id_eq hn] at this
  | @inPlace n axis output₀ extents hn hc hset =>
    obtain ⟨m, hm, hmid, -, hin, hop⟩ := k.wiring.node hn
    have hop := (hop.eq_of_ne (by simp [hc.op])).trans hc.op
    obtain ⟨-, l, -, hl, -⟩ := k.layouts (contains_iff.2 ⟨n, hn⟩)
    have hl' : g.layout m.id = .ok l := by rwa [k.soundG.id_eq hm]
    rw [FusionRules.judge_eq hm Fuse.concatenation (by rw [Node.tag, hop]; rfl)]
    refine ⟨(concatenation_verdict hop hl' (k.sliceWriters hnew hm hop hl hst)).congr
      (fails_concatenation hm hop hl).symm, fun hnone => ?_⟩
    exact k.not_fails_of_settled hn hm hin hop hl hc (hset hnone)

/-- What a step leaves of the layouts differs in padding only. -/
theorem relayout {done' : List NodeId} (k' : Padded r g' done') (l : Layout)
    (hl : g.layout x = .ok l) : ∃ padding, g'.layout x = .ok (l.withPadding padding) := by
  obtain ⟨n, hn, -⟩ := layout_eq_ok.1 hl
  obtain ⟨-, l', -, hl', hr, -⟩ := k.layouts (by
    rw [k.wiring.contains_eq]
    exact contains_iff.2 ⟨n, hn⟩)
  obtain rfl := Except.ok.inj (hl.symm.trans hl')
  obtain ⟨padding, h, -⟩ := k'.layout hr
  exact ⟨padding, h⟩

/-- A window that was settled at compilation is renewed with the padding it had. -/
theorem window_renew (hnew : id ∉ done) (hready : ∀ a, r.Feeds a id → a ∈ done)
    (hw : f.Windowed id) {l : Layout} (hl : f.layout id = .ok l)
    (hd : l.padding.hasDynamic = false) : ¬ g.Fails id ∧
      ∀ p g' l', g.Placed id p g' → g'.layout id = .ok l' → l'.padding = l.padding := by
  obtain ⟨⟨into, offset, hst⟩, n, offsets, sizes, hn, hop⟩ := hw
  obtain ⟨-, p₀, -, -, hstands⟩ := k.compiled.stands hst
  cases hstands with
  | @inPlace n' axis _ _ hn' hc _ =>
    obtain rfl := Option.some.inj (hn.symm.trans hn')
    cases hop.symm.trans hc.op
  | @view n' into' input₀ output₀ hn' hv hinst =>
    obtain rfl := Option.some.inj (hn.symm.trans hn')
    obtain ⟨m, input, output, now⟩ := k.viewNow hnew hready hn hv
    obtain rfl := k.compiled.sound'.id_eq hn
    obtain rfl := Except.ok.inj (hl.symm.trans hv.output_layout)
    have hmop := now.op.trans hop
    have hr := hv.reason
    rw [hop] at hr
    obtain - | - | - | ⟨-, -, -, hwin, halloc, -, hlay, -⟩ := hr
    next axes =>
    obtain ⟨q, rest, hy⟩ := now.yields
    rw [hmop] at hy
    obtain ⟨ho, hsz, -⟩ := hy.crop_lengths
    have hpad : l.padding = ⟨axes⟩ := by
      have := hinst n.id _ (by rw [hlay]; exact List.mem_singleton_self _)
      rw [← this]
      rfl
    have hlen : input₀.shape.dims.length = input.shape.dims.length :=
      now.input_refines.shape.length_eq.symm
    have haxes : input₀.padding.axes.length = input₀.shape.dims.length := by
      rw [← now.padding, hlen]
      exact (Layout.isValid_iff.1 (Layout.isValid_of_isAllocatable now.input_allocatable)).2
    have hstatic : input₀.isStatic = true := by
      rw [hpad] at hd
      exact Shape.isStatic_iff_unknown.2
        ((hasDynamic_windowPadding haxes (hlen ▸ ho) (hlen ▸ hsz) hwin).1 hd)
    refine ⟨now.not_fails_of_static hmop hwin halloc hstatic, fun p g' l' a hl' => ?_⟩
    obtain ⟨m', hm', ⟨into'', input', output', hv'⟩ | ⟨axis, _, _, hc⟩⟩ := judge_eligible a.judged
    all_goals obtain rfl := Option.some.inj (now.node.symm.trans hm')
    · have hr' := hv'.reason
      rw [hmop] at hr'
      obtain - | - | - | ⟨-, -, -, hwin', -, -, hlay', -⟩ := hr'
      obtain rfl := Except.ok.inj (now.reads.symm.trans hv'.reads)
      obtain rfl := Except.ok.inj (now.input_layout.symm.trans hv'.input_layout)
      rw [now.input_refines.shape.eq_of_isStatic hstatic, now.padding, hwin] at hwin'
      obtain rfl := Except.ok.inj hwin'
      rw [a.layout, hlay', now.id_eq] at hl'
      have := layout_setLayout_self (l := output'.withPadding ⟨axes⟩) (contains_iff.2 ⟨_, now.node⟩)
      obtain rfl := Except.ok.inj (hl'.symm.trans this)
      exact hpad.symm
    · cases hmop.symm.trans hc.op

/-- A step leaves the input of every crop so far as it is. -/
theorem crop_input_eq (hnew : id ∉ done) {demoted : List NodeId}
    (step : Recheck.Step g id g' demoted) (hx : x ∈ id :: done) {n : Node}
    {offsets sizes : List Nat} {a : NodeId} (hn : g.node? x = some n)
    (hop : n.op = .crop offsets sizes) (hin : g.input x 0 = .ok a) : g'.layout a = g.layout a := by
  have hf : g.Feeds a x := .of_input hn ((input_eq_ok hn).1 hin)
  cases step with
  | demote _ => exact Recheck.layout_demote ..
  | @renew p _ hrenew =>
    by_cases hid : x = id
    · subst hid
      obtain ⟨m, hm, ⟨into, input, output, hv⟩ | ⟨axis, _, _, hc⟩⟩ := judge_eligible hrenew.judged
      all_goals obtain rfl := Option.some.inj (hn.symm.trans hm)
      · have hreads := hv.reads
        rw [k.soundG.id_eq hn] at hreads
        obtain rfl := Except.ok.inj (hin.symm.trans hreads)
        rw [hrenew.placed.input_layout k.soundG hn hv, hv.input_layout]
      · cases hop.symm.trans hc.op
    · refine hrenew.placed.layout_eq_of_feeds k.soundG hf (fun he => hnew ?_) hid
      exact k.rechecked.closed (k.rechecked.rechecking.wiring.feeds (he ▸ hf))
        ((List.mem_cons.1 hx).resolve_left hid)

theorem step (hnew : id ∉ done) (hready : ∀ a, r.Feeds a id → a ∈ done) {into : NodeId}
    {offset : Nat} (hst : g.state? id = some (.optimized into offset)) {demoted : List NodeId}
    (step : Recheck.Step g id g' demoted) :
    Revisiting b f r g' tensors values (id :: done) := by
  refine ⟨k.compiled, k.resolved, k.rechecked.step k.soundR hnew hready hst step, ?_⟩
  intro x hx hw l l' hl hl' hd
  have hverdict := (k.verdict hnew hready hst).1
  by_cases hid : x = id
  · subst hid
    obtain ⟨hno, hkeep⟩ := k.window_renew hnew hready hw hl hd
    cases step with
    | @renew p _ a =>
      refine ⟨hkeep p g' l' a.placed hl', p.into, p.offset, ?_⟩
      rw [a.state, state?_setState, if_pos rfl, hst]
      rfl
    | @demote reason hj => exact absurd ((hverdict.rejected_iff hj).1 ⟨reason, rfl⟩) hno
  · have hd' := (List.mem_cons.1 hx).resolve_left hid
    obtain ⟨m, hm, -⟩ := layout_eq_ok.1 hl
    obtain ⟨-, l₁, -, hl₁, -⟩ := k.layouts (contains_iff.2 ⟨m, hm⟩)
    obtain ⟨hpad, hopt⟩ := k.window x hd' hw l l₁ hl hl₁ hd
    cases step with
    | renew a =>
      rw [a.placed.layout_eq k.soundG hid fun _ => hopt, hl₁] at hl'
      obtain rfl := Except.ok.inj hl'
      exact ⟨hpad, by rwa [a.placed.state_eq hid]⟩
    | demote _ =>
      rw [Recheck.layout_demote, hl₁] at hl'
      obtain rfl := Except.ok.inj hl'
      exact ⟨hpad, by rwa [Recheck.state?_demote, state?_setState, if_neg (Ne.symm hid)]⟩

/-- Whether a decision fails is settled once its node is done. -/
theorem fails_iff (hnew : id ∉ done) {demoted : List NodeId} (step : Recheck.Step g id g' demoted)
    (k' : Revisiting b f r g' tensors values (id :: done)) (hx : x ∈ id :: done) :
    g'.Fails x ↔ g.Fails x := by
  have w : g.SameWiring g' :=
    k.rechecked.rechecking.wiring.trans k'.rechecked.rechecking.wiring.symm
  constructor
  · intro hf
    refine hf.congr w.symm (fun y l hl => k'.relayout k.rechecked.padded l hl)
      fun n offsets sizes a hn hop hin => ?_
    obtain ⟨m, hm, -, -, -, hmop⟩ := w.symm.node hn
    have hmop := hmop.eq_of_ne (by simp [hop])
    exact (k.crop_input_eq hnew step hx hm (hmop.trans hop) (w.symm.input hin)).symm
  · intro hf
    exact hf.congr w (fun y l hl => k.relayout k'.rechecked.padded l hl)
      fun n offsets sizes a hn hop hin => k.crop_input_eq hnew step hx hn hop hin

end Revisiting

/-- What a recheck underway has reported: the optimized nodes so far, and which of them failed. -/
structure Demoting (b f r g : Graph) (tensors : List (NodeId × Tensor)) (values : InputValues)
    (done : List NodeId) (seen : RecheckReport) : Prop where
  revisiting : Revisiting b f r g tensors values done
  checked : seen.checked = done.countP fun x => (f.state? x).any (·.isOptimized)
  sublist : seen.demoted.Sublist done.reverse
  demoted : ∀ x ∈ done, x ∈ seen.demoted ↔ f.IsOptimized x ∧ g.Fails x
  assumed : ∀ x ∈ seen.demoted, ∀ n, f.node? x = some n → n.assumption ≠ none

namespace Demoting

variable {seen : RecheckReport} (k : Demoting b f r g tensors values done seen)

include k

theorem skip (hnew : id ∉ done) (hready : ∀ a, r.Feeds a id → a ∈ done)
    (hst : ∀ into offset, g.state? id ≠ some (.optimized into offset)) :
    Demoting b f r g tensors values (id :: done) seen := by
  have hno : ¬ f.IsOptimized id := by
    rintro ⟨into, offset, h⟩
    exact hst into offset ((k.revisiting.state?_f hnew).symm.trans h)
  have hcount : (f.state? id).any (·.isOptimized) = false := by
    cases hs : f.state? id with
    | none => rfl
    | some s =>
      cases s with
      | optimized into offset => exact absurd ⟨into, offset, hs⟩ hno
      | unanalyzed | eligible | rejected => rfl
  refine ⟨⟨k.revisiting.compiled, k.revisiting.resolved, k.revisiting.rechecked.skip hready hst,
    ?_⟩, ?_, ?_, ?_, k.assumed⟩
  · intro x hx hw
    rcases List.mem_cons.1 hx with rfl | hx
    · exact absurd hw.1 hno
    · exact k.revisiting.window x hx hw
  · rw [List.countP_cons_of_neg (by simp [hcount])]
    exact k.checked
  · rw [List.reverse_cons]
    exact k.sublist.trans (List.sublist_append_left _ _)
  · intro x hx
    rcases List.mem_cons.1 hx with rfl | hx
    · refine iff_of_false (fun hm => hnew ?_) fun h => hno h.1
      exact List.mem_reverse.1 (k.sublist.subset hm)
    · exact k.demoted x hx

theorem step (hnew : id ∉ done) (hready : ∀ a, r.Feeds a id → a ∈ done) {into : NodeId}
    {offset : Nat} (hst : g.state? id = some (.optimized into offset)) {demoted : List NodeId}
    (step : Recheck.Step g id g' demoted) : Demoting b f r g' tensors values (id :: done)
      ⟨seen.checked + 1, seen.demoted ++ demoted⟩ := by
  have k' := k.revisiting.step hnew hready hst step
  have hf : f.state? id = some (.optimized into offset) :=
    (k.revisiting.state?_f hnew).trans hst
  obtain ⟨hverdict, hassumed⟩ := k.revisiting.verdict hnew hready hst
  -- the report of one step says whether the decision failed
  have hid : (demoted = [] ∧ ¬ g.Fails id) ∨ (demoted = [id] ∧ g.Fails id) := by
    cases step with
    | renew a => exact .inl ⟨rfl, fun hfail => by simpa using (hverdict.rejected_iff a.judged).2 hfail⟩
    | @demote reason hj => exact .inr ⟨rfl, (hverdict.rejected_iff hj).1 ⟨reason, rfl⟩⟩
  have hfresh : id ∉ seen.demoted := fun hm => hnew (List.mem_reverse.1 (k.sublist.subset hm))
  refine ⟨k', ?_, ?_, ?_, ?_⟩
  · rw [List.countP_cons_of_pos (by simp [hf, FusionState.isOptimized]), ← k.checked]
  · rw [List.reverse_cons]
    refine List.Sublist.append k.sublist ?_
    rcases hid with ⟨rfl, -⟩ | ⟨rfl, -⟩
    · exact List.nil_sublist _
    · exact .refl _
  · intro x hx
    rw [k.revisiting.fails_iff hnew step k' hx, List.mem_append]
    rcases List.mem_cons.1 hx with rfl | hx
    · rcases hid with ⟨rfl, hno⟩ | ⟨rfl, hfail⟩
      · exact iff_of_false (by simp [hfresh]) fun h => hno h.2
      · exact iff_of_true (by simp) ⟨⟨into, offset, hf⟩, hfail⟩
    · rw [← k.demoted x hx]
      refine or_iff_left fun hm => ?_
      rcases hid with ⟨rfl, -⟩ | ⟨rfl, -⟩
      · cases hm
      · exact hnew (List.mem_singleton.1 hm ▸ hx)
  · intro x hx n hn
    rcases List.mem_append.1 hx with hx | hx
    · exact k.assumed x hx n hn
    · rcases hid with ⟨rfl, -⟩ | ⟨rfl, hfail⟩
      · cases hx
      · obtain rfl := List.mem_singleton.1 hx
        exact fun hnone => hassumed n hn hnone hfail

end Demoting

/-- A recheck of what an execution resolved: it answers unless a size overflows. -/
theorem Compiled.recheck (c : Compiled b f) (hr : f.Resolved tensors values r)
    (hno : (r.recheck .standard).2 ≠ .error (.fault .overflow)) : ∃ g report done,
      r.recheck .standard = (g, .ok report) ∧ done.Perm r.order ∧
        Demoting b f r g tensors values done report ∧ report.demoted.Sublist r.order := by
  have hs : r.Sound := hr.relaid.wiring.sound c.sound'
  have hlinked := c.linked.congr hr.relaid.wiring hr.relaid.state hr.relaid.sharing
  have hstart : Demoting b f r r tensors values [] ⟨0, []⟩ :=
    ⟨⟨c, hr, rechecked_of_linked hlinked hr.inferred.layout, by simp⟩, rfl, .refl _, by simp,
      by simp⟩
  have hok := (Recheck.along_onlyOverflow (h := r)
    (I := fun g done seen => Demoting b f r g tensors values done seen)
    (fun k hnew hready hst => k.skip hnew hready hst)
    (fun k hnew hready hst step => k.step hnew hready hst step)
    (fun k hnew hready hst => (k.revisiting.verdict hnew hready hst).1.onlyOverflow)
    (fun k => k.revisiting.rechecked.rechecking.wiring) hs.ordered hstart).eq_ok hno
  obtain ⟨report, hreport⟩ := hok
  have hend := Recheck.along_induction (h := r)
    (I := fun g done seen => Demoting b f r g tensors values done seen) ⟨0, []⟩
    (fun k hnew hready hst => k.skip hnew hready hst)
    (fun k hnew hready hst step => k.step hnew hready hst step) hs.ordered hstart
    (Prod.ext rfl hreport : r.recheck .standard = ((r.recheck .standard).1, .ok report))
  rw [List.append_nil, List.nil_append, Nat.zero_add] at hend
  refine ⟨_, report, _, Prod.ext rfl hreport, List.reverse_perm _, hend, ?_⟩
  simpa using hend.sublist

/-- As many nodes of the order are optimized as there are in the graph. -/
theorem countP_order (hs : g.Sound) :
    g.order.countP (fun x => (g.state? x).any (·.isOptimized)) =
      g.nodes.countP (·.state.isOptimized) := by
  have hperm : g.order.Perm (g.nodes.map (·.id)) := by
    refine (List.perm_ext_iff_of_nodup hs.order_nodup hs.nodes_nodup).2 fun x => ?_
    rw [hs.mem_order, contains_iff, List.mem_map]
    constructor
    · rintro ⟨n, hn⟩
      exact ⟨n, mem_nodes.2 ⟨x, hn⟩, hs.id_eq hn⟩
    · rintro ⟨n, hn, rfl⟩
      exact ⟨n, hs.node_of_mem hn⟩
  rw [hperm.countP_eq, List.countP_map]
  refine List.countP_congr fun n hn => ?_
  simp [state?, hs.node_of_mem hn]

/-- What an execution takes back of a compiled program: the recheck answers unless a size overflows.
It looks at every optimized node and demotes those that fail, in topological order. No decision made
without an assumption is among them, and no permute and no reorder. -/
theorem Graph.Built.demotes (hb : b.Built) {config : BuildConfig} {p : Program}
    (hp : Program.build config b = .ok p) (hr : p.graph.resolve tensors = (r, .ok values))
    (hno : (r.recheck .standard).2 ≠ .error (.fault .overflow)) : ∃ h report,
      r.recheck .standard = (h, .ok report) ∧ report.checked = p.stats.optimized ∧
        report.demoted.Sublist p.graph.order ∧
        (∀ id, id ∈ report.demoted ↔
          p.graph.IsOptimized id ∧ (h.Misaligned id ∨ h.ScalarOfMany id)) ∧
        ∀ id n, p.graph.node? id = some n →
          (n.assumption = none ∨ n.tag = .permute ∨ n.tag = .reorder) → id ∉ report.demoted := by
  obtain ⟨c₀, c⟩ := hb.compiled hp
  have hs := c.sound'
  have hres := hs.resolved hr
  obtain ⟨h, report, done, heq, hdone, k, hsub⟩ := c.recheck hres hno
  have hordered : r.order = p.graph.order := hres.relaid.wiring.order_eq.symm
  have hdemoted : ∀ id, id ∈ report.demoted ↔ p.graph.IsOptimized id ∧ h.Fails id := by
    intro id
    by_cases hid : id ∈ done
    · exact k.demoted id hid
    · refine iff_of_false (fun hm => hid (hdone.mem_iff.2 (hsub.subset hm))) ?_
      rintro ⟨⟨into, offset, hst⟩, -⟩
      rw [hdone.mem_iff, hordered, hs.mem_order, contains_iff] at hid
      obtain ⟨n, hn, -⟩ := Option.map_eq_some_iff.1 hst
      exact hid ⟨n, hn⟩
  refine ⟨h, report, heq, ?_, hordered ▸ hsub, hdemoted, ?_⟩
  · rw [k.checked, hdone.countP_eq, hordered]
    exact countP_order hs
  · intro id n hn hn' hm
    rcases hn' with hnone | htag
    · exact k.assumed id hm n hn hnone
    · obtain ((⟨hx, hop', -⟩ | ⟨hx, hop', -⟩) | ⟨hx, hop', -⟩) := ((hdemoted id).1 hm).2
      all_goals
        obtain ⟨m, hm', -, -, -, hop⟩ := k.revisiting.wiring.symm.node hx
        obtain rfl := Option.some.inj (hn.symm.trans hm')
        have := hop.eq_of_ne (by simp [hop'])
        simp [Node.tag, this, hop', Operation.tag] at htag

/-- A vector that is reshaped to a scalar, by a pattern that is read through a permute. -/
def scalarSample : Graph :=
  (((empty.place "x" (.input (.plain ⟨[.unknown]⟩ .f32)) []).place "q"
    (.input (.plain ⟨[.unknown]⟩ .i64)) []).place "s" (.permute [0]) [1]).place "r"
      (.reshape (.fromInput 0) false) [0, 2]

/-- Six elements for the vector, and a pattern that asks for two dims. -/
def scalarTensors : List (NodeId × Tensor) :=
  [(0, ⟨[6], .f32, List.replicate 24 0⟩), (1, ⟨[2], .i64, List.replicate 16 0⟩)]

/-- The sample compiled. -/
def scalarProgram : Program :=
  ⟨(Pass.fuseAlong .standard [1, 2, 0, 3] (InferenceTable.standard.inferGraph [] scalarSample).1).1,
    .standard, none⟩

theorem built_scalarSample : scalarSample.Built :=
  Built.empty.place rfl |>.place rfl |>.place rfl |>.place rfl

theorem demotes_scalarSample : ∃ h report,
    (scalarProgram.graph.resolve scalarTensors).1.recheck .standard = (h, .ok report) ∧
      report.checked = 2 ∧ (3 ∈ report.demoted ↔
        scalarProgram.graph.IsOptimized 3 ∧ (h.Misaligned 3 ∨ h.ScalarOfMany 3)) := by
  obtain ⟨h, report, heq, hchecked, -, hdemoted, -⟩ := @Graph.Built.demotes scalarSample _ scalarTensors _
    built_scalarSample .standard scalarProgram rfl rfl nofun
  exact ⟨h, report, heq, hchecked, hdemoted 3⟩

/-- An empty window into a tensor that has no elements, but sizes whose product overflows. -/
def hollowSample : Graph :=
  (empty.place "x" (.input (.plain ⟨[.unknown, .unknown, .unknown]⟩ .f32)) []).place "c"
    (.crop [0, 1, 1] [0, 2, 2]) [0]

/-- The sample compiled. -/
def hollowProgram : Program :=
  ⟨(Pass.fuseAlong .standard [0, 1] (InferenceTable.standard.inferGraph [] hollowSample).1).1,
    .standard, none⟩

/-- A recheck can demote a node that is not misaligned, and it can fail where the shapes resolve. -/
theorem demotes_aligned_or_overflows :
    (Program.build .standard scalarSample = .ok scalarProgram ∧
      ∃ resolved values h report, scalarProgram.graph.resolve scalarTensors = (resolved, .ok values) ∧
        resolved.recheck .standard = (h, .ok report) ∧ report.demoted = [3] ∧ ¬ h.Misaligned 3) ∧
    (Program.build .standard hollowSample = .ok hollowProgram ∧
      ∃ resolved values,
        hollowProgram.graph.resolve [(0, ⟨[0, 8589934592, 8589934592], .f32, []⟩)] =
          (resolved, .ok values) ∧
        (resolved.recheck .standard).2 = .error (.fault .overflow)) := by
  refine ⟨⟨rfl, _, _, _, _, rfl, rfl, rfl, ?_⟩, rfl, _, _, rfl, rfl⟩
  rintro (⟨hn, hop, -⟩ | ⟨hn, hop, -⟩)
  all_goals
    obtain rfl := Option.some.inj hn
    cases hop

end BufferFusion
