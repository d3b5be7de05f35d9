import BufferFusion.Proofs.Fusion.Linked
import BufferFusion.Proofs.Graph.Order

/-!
# Steps of fusion and rechecking

What the two walks do to one node, and how a property that one step keeps is kept by a walk. Both
meet the nodes in topological order, so a step may rely on the producers being done.
-/
namespace BufferFusion

namespace Graph

variable {g h : Graph} {id x : NodeId} {l : Layout} {ls : List (NodeId × Layout)}

theorem relaid_setLayouts (g : Graph) (ls : List (NodeId × Layout)) :
    g.Relaid (g.setLayouts ls) := by
  induction ls generalizing g with
  | nil => exact .refl g
  | cons q ls ih => exact (relaid_setLayout g q.1 q.2).trans (ih _)

theorem layout_setLayouts_of_not_mem (hx : x ∉ ls.map (·.1)) :
    (g.setLayouts ls).layout x = g.layout x := by
  induction ls generalizing g with
  | nil => rfl
  | cons q ls ih =>
    rw [List.map_cons, List.mem_cons, not_or] at hx
    exact (ih hx.2).trans (layout_setLayout_of_ne hx.1 _)

theorem layout_setLayouts_of_mem (hn : (ls.map (·.1)).Nodup) (hx : (x, l) ∈ ls)
    (hlive : g.contains x = true) : (g.setLayouts ls).layout x = .ok l := by
  induction ls generalizing g with
  | nil => cases hx
  | cons q ls ih =>
    obtain ⟨hq, hn⟩ := List.nodup_cons.1 hn
    rcases List.mem_cons.1 hx with rfl | hx
    · exact (layout_setLayouts_of_not_mem hq).trans (layout_setLayout_self hlive)
    · refine ih hn hx ?_
      rwa [(relaid_setLayout g q.1 q.2).wiring.contains_eq] at hlive

theorem layout_setLayout (g : Graph) (id x : NodeId) (l : Layout) : (g.setLayout id l).layout x =
    if x = id ∧ g.contains x = true then .ok l else g.layout x := by
  by_cases hx : x = id
  · subst hx
    by_cases hlive : g.contains x = true
    · rw [if_pos ⟨rfl, hlive⟩, layout_setLayout_self hlive]
    · rw [if_neg fun h => hlive h.2]
      have hnone : g.node? x = none := by simpa [contains] using hlive
      simp [layout, get, node?_setLayout, hnone]
  · rw [if_neg fun h => hx h.1, layout_setLayout_of_ne hx]

theorem layout_setLayouts_congr (hc : ∀ x, h.contains x = g.contains x)
    (hl : ∀ x, h.layout x = g.layout x) (ls : List (NodeId × Layout)) (x : NodeId) :
    (h.setLayouts ls).layout x = (g.setLayouts ls).layout x := by
  induction ls generalizing g h with
  | nil => exact hl x
  | cons q ls ih =>
    refine ih (fun y => ?_) fun y => ?_
    · rw [← (relaid_setLayout h q.1 q.2).wiring.contains_eq,
        ← (relaid_setLayout g q.1 q.2).wiring.contains_eq, hc]
    · rw [layout_setLayout, layout_setLayout, hc, hl]

end Graph

open Graph

variable {g h : Graph} {id x : NodeId} {p : Proposal} {done ids : List NodeId}

/-- What a rule proposes is a view or a concatenation in place. -/
theorem judge_eligible (hj : FusionRules.standard.judge g id = .ok (.eligible p)) :
    ∃ n, g.node? id = some n ∧
      ((∃ producer input output, Fuse.ViewProposal g n p producer input output) ∨
        ∃ axis output extents, Fuse.InPlaceProposal g n p axis output extents) := by
  obtain ⟨n, hn, h⟩ := Result.bind_eq_ok.1 hj
  refine ⟨n, get_eq_ok.1 hn, ?_⟩
  cases hop : n.op with
  | input | constant | fullyConnected =>
    simp only [Node.tag, hop, Operation.tag, FusionRules.standard, reject] at h
    cases h
  | permute =>
    simp only [Node.tag, hop, Operation.tag, FusionRules.standard] at h
    exact .inl (Fuse.permute_eligible hop h)
  | reshape =>
    simp only [Node.tag, hop, Operation.tag, FusionRules.standard] at h
    exact .inl (Fuse.reshape_eligible hop h)
  | crop =>
    simp only [Node.tag, hop, Operation.tag, FusionRules.standard] at h
    exact .inl (Fuse.crop_eligible hop h)
  | reorder =>
    simp only [Node.tag, hop, Operation.tag, FusionRules.standard] at h
    exact .inl (Fuse.reorder_eligible hop h)
  | concatenation axis =>
    simp only [Node.tag, hop, Operation.tag, FusionRules.standard] at h
    exact .inr ⟨axis, Fuse.concatenation_eligible hop h⟩

namespace Pass

/-- A graph after a proposal about one node was accepted. -/
structure Accepted (g : Graph) (id : NodeId) (p : Proposal) (f : Graph) : Prop where
  judged : FusionRules.standard.judge g id = .ok (.eligible p)
  once : Sharing.Once p.edges
  free : ∀ e ∈ p.edges, ∀ e' ∈ g.sharing.edges, e'.member ≠ e.member
  wiring : f.SameWiring g
  state : ∀ x, f.state? x = (g.setState id p.state).state? x
  assumption : ∀ x, (f.node? x).map (·.assumption) =
    ((g.setAssumption id p.assumption).node? x).map (·.assumption)
  sharing : f.sharing = g.sharing.commit p.edges
  layout : ∀ x, f.layout x = (g.setLayouts p.layouts).layout x

theorem accepted {committed : Graph} (hj : FusionRules.standard.judge g id = .ok (.eligible p))
    (hp : (g.setState id .eligible).propose p.edges = .ok committed) :
    Accepted g id p (accept committed id p) := by
  obtain ⟨rfl, honce, hfree, -⟩ := Sharing.propose_eq_ok hp
  have r := relaid_setLayouts ((g.setState id .eligible).setSharing
    ((g.setState id .eligible).sharing.commit p.edges)) p.layouts
  refine ⟨hj, honce, hfree, ?_, fun x => ?_, fun x => ?_, ?_, fun x => ?_⟩
  · exact (sameWiring_setState ..).trans <| (sameWiring_setAssumption ..).trans <|
      r.wiring.symm.trans <| (sameWiring_setSharing ..).trans (sameWiring_setState ..)
  · simp only [accept, state?_setState, state?_setAssumption, r.state, state?_setSharing]
    split <;> simp [Function.comp_def]
  · have := r.assumption x
    simp only [accept, node?_setState, node?_setAssumption]
    split
    · next hx =>
      subst hx
      have hsome := r.wiring.map_wiring id
      simp only [node?_setSharing, node?_setState, if_true] at hsome
      revert hsome
      cases (Graph.setLayouts _ p.layouts).node? id <;> cases g.node? id <;> simp
    · next hx => simpa [node?_setState, hx] using this
  · exact r.sharing
  · simp only [accept, layout_setState, layout_setAssumption]
    refine layout_setLayouts_congr (fun y => ?_) (fun y => by simp) _ x
    exact ((sameWiring_setSharing ..).trans (sameWiring_setState ..)).contains_eq y

theorem Accepted.linked {f : Graph} (a : Accepted g id p f)
    (hl : ((g.setSharing (g.sharing.commit p.edges)).setState id p.state).Linked) : f.Linked :=
  hl.congr ((sameWiring_place g id _ p.state).trans a.wiring.symm)
    (fun x => (a.state x).trans (by simp [state?_setState])) a.sharing

/-- What the pass does to one node. -/
inductive FuseStep (g : Graph) (id : NodeId) : Graph → Prop
  | stop : FuseStep g id g
  | decide {s : FusionState} : s.isOptimized = false → FuseStep g id (g.setState id s)
  | accept {p : Proposal} {f : Graph} : Accepted g id p f → FuseStep g id f

theorem fuseStep_fuseNode (g : Graph) (id : NodeId) :
    FuseStep g id (fuseNode .standard g id).1 := by
  have hset : ∀ s s', (g.setState id s).setState id s' = g.setState id s' := by
    intro s s'
    simp [setState, adjust, List.modify_modify_eq, Function.comp_def]
  simp only [fuseNode]
  split
  · exact .stop
  · exact .decide rfl
  · next hj =>
    split
    · next hp => exact .accept (accepted hj hp)
    · split
      · simpa only [hset] using FuseStep.decide rfl
      · exact .decide rfl

/-- What every step of the pass keeps, the pass keeps. -/
theorem fuseAlong_induction {I : Graph → List NodeId → Prop}
    (hskip : ∀ {g done id}, I g done → (∀ a, h.Feeds a id → a ∈ done) →
      (∀ s, g.state? id = some s → s.isTerminal = true) → I g (id :: done))
    (hstep : ∀ {g g' done id s}, I g done → id ∉ done → (∀ a, h.Feeds a id → a ∈ done) →
      g.state? id = some s → s.isTerminal = false → FuseStep g id g' → I g' (id :: done))
    (ho : h.Ordered done ids) (hI : I g done) : ∃ done', I (fuseAlong .standard ids g).1 done' := by
  induction ids generalizing g done with
  | nil => exact ⟨done, hI⟩
  | cons id ids ih =>
    obtain ⟨hnew, -, hready, hrest⟩ := ho
    simp only [fuseAlong]
    split
    · next hn => exact ih hrest (hskip hI hready fun s hs => by simp [state?, hn] at hs)
    next n hn =>
    split
    · next hterm =>
      refine ih hrest (hskip hI hready fun s hs => ?_)
      rw [state?, hn, Option.map_some] at hs
      rwa [← Option.some.inj hs]
    next hterm =>
    have hI' := hstep hI hnew hready (s := n.state) (by simp [state?, hn]) (by simpa using hterm)
      (fuseStep_fuseNode g id)
    split
    · next hf => exact ⟨_, by rwa [hf] at hI'⟩
    · next hf => exact ih hrest (by rwa [hf] at hI')

end Pass

namespace Recheck

/-- A graph after the decision about one optimized node was made again. -/
structure Renewed (g : Graph) (id : NodeId) (p : Proposal) (f : Graph) : Prop where
  judged : FusionRules.standard.judge g id = .ok (.eligible p)
  wiring : f.SameWiring g
  state : ∀ x, f.state? x = (g.setState id p.state).state? x
  assumption : ∀ x, (f.node? x).map (·.assumption) = (g.node? x).map (·.assumption)
  sharing : f.sharing = (g.sharing.refresh p.edges).1
  layout : ∀ x, f.layout x = (g.setLayouts p.layouts).layout x

theorem renewed (hj : FusionRules.standard.judge g id = .ok (.eligible p)) :
    Renewed g id p (renew g id p) := by
  have r := relaid_setLayouts (g.setSharing (g.sharing.refresh p.edges).1) p.layouts
  refine ⟨hj, ?_, fun x => ?_, fun x => ?_, r.sharing, fun x => ?_⟩
  · exact (sameWiring_setState ..).trans <| r.wiring.symm.trans (sameWiring_setSharing ..)
  · simp only [renew, state?_setState, r.state, state?_setSharing]
  · rw [renew, node?_setState, ← node?_setSharing g (g.sharing.refresh p.edges).1 x,
      ← r.assumption x]
    split <;> simp [Function.comp_def]
  · simp only [renew, layout_setState]
    refine layout_setLayouts_congr (fun y => ?_) (fun y => ?_) _ x <;> rfl

theorem Renewed.linked {f : Graph} (a : Renewed g id p f)
    (hl : ((g.setSharing (g.sharing.refresh p.edges).1).setState id p.state).Linked) : f.Linked :=
  hl.congr ((sameWiring_place g id _ p.state).trans a.wiring.symm)
    (fun x => (a.state x).trans (by simp [state?_setState])) a.sharing

theorem sameWiring_demote (g : Graph) (id : NodeId) : (demote g id).SameWiring g :=
  (sameWiring_setAssumption ..).trans <| (sameWiring_setState ..).trans (sameWiring_setSharing ..)

theorem state?_demote (g : Graph) (id x : NodeId) :
    (demote g id).state? x = (g.setState id (.rejected .runtimeShapeMismatch)).state? x := by
  simp only [demote, state?_setState, state?_setAssumption, state?_setSharing]

@[simp] theorem sharing_demote (g : Graph) (id : NodeId) :
    (demote g id).sharing = g.sharing.detach id := rfl

@[simp] theorem layout_demote (g : Graph) (id x : NodeId) :
    (demote g id).layout x = g.layout x := by simp [demote]

/-- What rechecking does to one optimized node, with what it reports. -/
inductive Step (g : Graph) (id : NodeId) : Graph → List NodeId → Prop
  | renew {p : Proposal} {f : Graph} : Renewed g id p f → Step g id f []
  | demote {reason : RejectReason} :
      FusionRules.standard.judge g id = .ok (.rejected reason) → Step g id (demote g id) [id]

section Along
variable {t : FusionRules} {s : FusionState}

theorem along_cons_of_not_optimized (t : FusionRules) (hst : g.state? id = some s)
    (hs : s.isOptimized = false) : along t (id :: ids) g = along t ids g := by
  obtain ⟨n, hn, rfl⟩ := Option.map_eq_some_iff.1 hst
  rw [along, get_eq_ok.2 hn]
  simp only [hs, if_true]

theorem along_cons_of_error {e : Error} (hst : g.state? id = some s) (hs : s.isOptimized = true)
    (hj : t.judge g id = .error e) : along t (id :: ids) g = (g, .error e) := by
  obtain ⟨n, hn, rfl⟩ := Option.map_eq_some_iff.1 hst
  rw [along, get_eq_ok.2 hn]
  simp only [hs, hj]
  rfl

theorem along_cons_of_eligible (hst : g.state? id = some s)
    (hs : s.isOptimized = true) (hj : t.judge g id = .ok (.eligible p)) :
    along t (id :: ids) g = ((along t ids (renew g id p)).1,
      (fun r => { r with checked := r.checked + 1 }) <$> (along t ids (renew g id p)).2) := by
  obtain ⟨n, hn, rfl⟩ := Option.map_eq_some_iff.1 hst
  rw [along, get_eq_ok.2 hn]
  simp only [hs, hj]
  rfl

theorem along_cons_of_rejected {reason : RejectReason} (hst : g.state? id = some s)
    (hs : s.isOptimized = true) (hj : t.judge g id = .ok (.rejected reason)) :
    along t (id :: ids) g = ((along t ids (demote g id)).1,
      (fun r => ⟨r.checked + 1, id :: r.demoted⟩) <$> (along t ids (demote g id)).2) := by
  obtain ⟨n, hn, rfl⟩ := Option.map_eq_some_iff.1 hst
  rw [along, get_eq_ok.2 hn]
  simp only [hs, hj]
  rfl

/-- All that rechecking can do at a node: go on, fail, or make the decision again. -/
theorem along_cons_cases (t : FusionRules) (ids : List NodeId) (hid : g.contains id = true) :
    (along t (id :: ids) g = along t ids g ∧
      ∀ into offset, g.state? id ≠ some (.optimized into offset)) ∨
    ∃ into offset, g.state? id = some (.optimized into offset) ∧
      ((∃ e, t.judge g id = .error e ∧ along t (id :: ids) g = (g, .error e)) ∨
      (∃ p, t.judge g id = .ok (.eligible p) ∧
        along t (id :: ids) g = ((along t ids (renew g id p)).1,
          (fun r => { r with checked := r.checked + 1 }) <$> (along t ids (renew g id p)).2)) ∨
      ∃ reason, t.judge g id = .ok (.rejected reason) ∧
        along t (id :: ids) g = ((along t ids (demote g id)).1,
          (fun r => ⟨r.checked + 1, id :: r.demoted⟩) <$> (along t ids (demote g id)).2)) := by
  obtain ⟨n, hn⟩ := contains_iff.1 hid
  have hst : g.state? id = some n.state := by rw [state?, hn, Option.map_some]
  cases hs : n.state with
  | unanalyzed | eligible | rejected =>
    rw [hs] at hst
    exact .inl ⟨along_cons_of_not_optimized t hst rfl, by simp [hst]⟩
  | optimized into offset =>
    rw [hs] at hst
    refine .inr ⟨into, offset, hst, ?_⟩
    cases hj : t.judge g id with
    | error e => exact .inl ⟨e, rfl, along_cons_of_error hst rfl hj⟩
    | ok verdict =>
      cases verdict with
      | eligible p => exact .inr (.inl ⟨p, rfl, along_cons_of_eligible hst rfl hj⟩)
      | rejected reason => exact .inr (.inr ⟨reason, rfl, along_cons_of_rejected hst rfl hj⟩)

end Along

variable {I : Graph → List NodeId → RecheckReport → Prop} {g' : Graph}
  {seen report : RecheckReport}

/-- What every step of a recheck keeps, a recheck that succeeds keeps. -/
theorem along_induction (seen : RecheckReport)
    (hskip : ∀ {g done id seen}, I g done seen → id ∉ done → (∀ a, h.Feeds a id → a ∈ done) →
      (∀ into offset, g.state? id ≠ some (.optimized into offset)) → I g (id :: done) seen)
    (hstep : ∀ {g g' done id seen demoted into offset}, I g done seen → id ∉ done →
      (∀ a, h.Feeds a id → a ∈ done) → g.state? id = some (.optimized into offset) →
      Step g id g' demoted →
      I g' (id :: done) ⟨seen.checked + 1, seen.demoted ++ demoted⟩)
    (ho : h.Ordered done ids) (hI : I g done seen) (hr : along .standard ids g = (g', .ok report)) :
    I g' (ids.reverse ++ done)
      ⟨seen.checked + report.checked, seen.demoted ++ report.demoted⟩ := by
  induction ids generalizing g done seen report with
  | nil =>
    simp only [along, Prod.mk.injEq, Except.ok.injEq] at hr
    obtain ⟨rfl, rfl⟩ := hr
    simpa using hI
  | cons id ids ih =>
    obtain ⟨hnew, -, hready, hrest⟩ := ho
    rw [List.reverse_cons, List.append_assoc, List.singleton_append]
    have hid : g.contains id = true := by
      cases hget : g.get id with
      | error e =>
        rw [along, hget] at hr
        cases (Prod.mk.inj hr).2
      | ok n => exact contains_iff.2 ⟨n, get_eq_ok.1 hget⟩
    obtain ⟨heq, hno⟩ | ⟨into, offset, hs, ⟨e, -, heq⟩ | ⟨p, hj, heq⟩ | ⟨reason, hj, heq⟩⟩ :=
      along_cons_cases .standard ids hid
    all_goals rw [heq] at hr
    · exact ih _ hrest (hskip hI hnew hready hno) hr
    · cases (Prod.mk.inj hr).2
    · obtain ⟨hg, hok⟩ := Prod.mk.inj hr
      obtain ⟨r, hr', rfl⟩ := Result.map_eq_ok.1 hok
      have := ih _ hrest (hstep hI hnew hready hs (.renew (renewed hj))) (Prod.ext hg hr')
      simpa [Nat.add_assoc, Nat.add_comm 1] using this
    · obtain ⟨hg, hok⟩ := Prod.mk.inj hr
      obtain ⟨r, hr', rfl⟩ := Result.map_eq_ok.1 hok
      have := ih _ hrest (hstep hI hnew hready hs (.demote hj)) (Prod.ext hg hr')
      simpa [Nat.add_assoc, Nat.add_comm 1] using this

/-- Where every rule only fails by an overflow, so does the recheck. -/
theorem along_onlyOverflow
    (hskip : ∀ {g done id seen}, I g done seen → id ∉ done → (∀ a, h.Feeds a id → a ∈ done) →
      (∀ into offset, g.state? id ≠ some (.optimized into offset)) → I g (id :: done) seen)
    (hstep : ∀ {g g' done id seen demoted into offset}, I g done seen → id ∉ done →
      (∀ a, h.Feeds a id → a ∈ done) → g.state? id = some (.optimized into offset) →
      Step g id g' demoted →
      I g' (id :: done) ⟨seen.checked + 1, seen.demoted ++ demoted⟩)
    (hjudge : ∀ {g done id seen into offset}, I g done seen → id ∉ done →
      (∀ a, h.Feeds a id → a ∈ done) → g.state? id = some (.optimized into offset) →
      (FusionRules.standard.judge g id).OnlyOverflow)
    (hlive : ∀ {g done seen}, I g done seen → g.SameWiring h)
    (ho : h.Ordered done ids) (hI : I g done seen) : (along .standard ids g).2.OnlyOverflow := by
  induction ids generalizing g done seen with
  | nil => exact Result.onlyOverflow_ok _
  | cons id ids ih =>
    obtain ⟨hnew, hid, hready, hrest⟩ := ho
    rw [← (hlive hI).contains_eq] at hid
    obtain ⟨heq, hno⟩ | ⟨into, offset, hs, ⟨e, hj, heq⟩ | ⟨p, hj, heq⟩ | ⟨reason, hj, heq⟩⟩ :=
      along_cons_cases .standard ids hid
    all_goals rw [heq]
    · exact ih hrest (hskip hI hnew hready hno)
    · intro e' he
      obtain rfl := Except.error.inj he
      exact hjudge hI hnew hready hs _ hj
    · exact (ih hrest (hstep hI hnew hready hs (.renew (renewed hj)))).map _
    · exact (ih hrest (hstep hI hnew hready hs (.demote hj))).map _

end Recheck
end BufferFusion
