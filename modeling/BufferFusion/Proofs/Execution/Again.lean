import BufferFusion.Proofs.Execution.Installed

/-!
# Rechecking again

A recheck that follows another one, with nothing resolved in between, meets the padding that the
first one installed. Views are renewed as they are. A concatenation is taken back if one of its
inputs has padding by now; nothing else changes, and a third recheck changes nothing at all.
-/
namespace BufferFusion

open Graph

variable {g h r f : Graph} {id x y : NodeId} {p : Proposal} {ids done : List NodeId}
  {tensors : List (NodeId × Tensor)} {values : InputValues}

namespace Graph

theorem setLayouts_same {ls : List (NodeId × Layout)}
    (h : ∀ y l, (y, l) ∈ ls → g.layout y = .ok l) : g.setLayouts ls = g := by
  induction ls with
  | nil => rfl
  | cons q ls ih =>
    obtain ⟨y, l⟩ := q
    obtain ⟨n, hn, hl⟩ := layout_eq_ok.1 (h y l List.mem_cons_self)
    have hsame : g.setLayout y l = g := setLayout_same (by rw [hn]; exact hl)
    change (g.setLayout y l).setLayouts ls = g
    rw [hsame]
    exact ih fun y l hy => h y l (List.mem_cons_of_mem _ hy)

/-- To renew a decision that is carried out is to do nothing. -/
theorem Rests.renew_eq (k : g.Rests x p) (hl : g.Linked) : Recheck.renew g x p = g := by
  have hstate : g.setState x p.state = g := adjust_same fun n hn => by
    have hst := k.state
    rw [state?, hn, Option.map_some] at hst
    rw [← Option.some.inj hst]
  rw [Recheck.renew, Sharing.refresh_of_mem hl.once k.edges]
  change (g.setLayouts p.layouts).setState x p.state = g
  rw [setLayouts_same k.layouts, hstate]

/-- A graph whose decisions are all carried out. -/
structure AtRest (g : Graph) : Prop where
  sound : g.Sound
  linked : g.Linked
  rests : ∀ x, g.isOptimizedAt x = true → ∃ p, g.Rests x p

/-- The concatenations of a list that are done in place and have padding on an input. -/
def paddedJoins (g : Graph) (ids : List NodeId) : List NodeId :=
  ids.filter fun x => g.isOptimizedAt x && g.joinsPadded x

theorem node?_demote (g : Graph) (y x : NodeId) : (Recheck.demote g y).node? x = if x = y then
    (g.node? x).map ({ · with state := .rejected .runtimeShapeMismatch, assumption := none })
    else g.node? x := by
  simp only [Recheck.demote, node?_setAssumption, node?_setState, node?_setSharing]
  by_cases hx : x = y
  · subst hx
    simp [Function.comp_def]
  · rw [if_neg hx, if_neg (Ne.symm hx), if_neg (Ne.symm hx)]

theorem isOptimizedAt_demote (g : Graph) (y x : NodeId) :
    (Recheck.demote g y).isOptimizedAt x = (decide (x ≠ y) && g.isOptimizedAt x) := by
  rw [isOptimizedAt, isOptimizedAt, state?, state?, node?_demote]
  by_cases hx : x = y
  · subst hx
    cases g.node? x <;> simp [FusionState.isOptimized]
  · simp [hx]

theorem joinsPadded_demote (g : Graph) (y x : NodeId) :
    (Recheck.demote g y).joinsPadded x = g.joinsPadded x := by
  simp only [joinsPadded, node?_demote, Recheck.layout_demote]
  split
  · cases g.node? x <;> rfl
  · rfl

theorem AtRest.demote (k : g.AtRest) (hy : g.isOptimizedAt y = true) :
    (Recheck.demote g y).AtRest where
  sound := (Recheck.sameWiring_demote g y).symm.sound k.sound
  linked := by
    obtain ⟨into, offset, hst⟩ := isOptimizedAt_iff.1 hy
    exact k.linked.demote hst
  rests := by
    intro x hx
    rw [isOptimizedAt_demote, Bool.and_eq_true, decide_eq_true_eq] at hx
    obtain ⟨p, hp⟩ := k.rests x hx.2
    exact ⟨p, hp.demote k.sound k.linked hx.1 hy⟩

/-- Rechecking a graph whose decisions are all carried out. -/
theorem AtRest.along (k : g.AtRest) (hnodup : ids.Nodup) (hlive : ∀ x ∈ ids, g.contains x = true) :
    Recheck.along .standard ids g = ((g.paddedJoins ids).foldl Recheck.demote g,
      .ok ⟨ids.countP g.isOptimizedAt, g.paddedJoins ids⟩) := by
  induction ids generalizing g with
  | nil => rfl
  | cons id ids ih =>
    obtain ⟨hid, hnodup⟩ := List.nodup_cons.1 hnodup
    rw [List.forall_mem_cons] at hlive
    obtain ⟨n, hn⟩ := contains_iff.1 hlive.1
    have hst : g.state? id = some n.state := by rw [state?, hn, Option.map_some]
    have hopt : g.isOptimizedAt id = n.state.isOptimized := by
      rw [isOptimizedAt, hst, Option.any_some]
    cases hs : n.state.isOptimized with
    | false =>
      rw [Recheck.along_cons_of_not_optimized _ hst hs, ih k hnodup hlive.2]
      simp [paddedJoins, hopt, hs]
    | true =>
      rw [hs] at hopt
      obtain ⟨p, hp⟩ := k.rests id hopt
      have hj := hp.judge k.sound k.linked
      cases hpad : g.joinsPadded id with
      | false =>
        rw [hpad] at hj
        rw [Recheck.along_cons_of_eligible hst hs hj, hp.renew_eq k.linked, ih k hnodup hlive.2]
        simp [paddedJoins, hpad, hopt, Functor.map, Except.map]
      | true =>
        -- The rest of the list does not see that this node was demoted.
        have hne : ∀ x ∈ ids, x ≠ id := fun x hx he => hid (he ▸ hx)
        have hcount : ids.countP (Recheck.demote g id).isOptimizedAt = ids.countP g.isOptimizedAt :=
          List.countP_congr fun x hx => by simp [isOptimizedAt_demote, hne x hx]
        have hpadded : (Recheck.demote g id).paddedJoins ids = g.paddedJoins ids :=
          List.filter_congr fun x hx => by
            simp [isOptimizedAt_demote, joinsPadded_demote, hne x hx]
        have hrest := ih (k.demote hopt) hnodup fun x hx => by
          rw [(Recheck.sameWiring_demote g id).contains_eq]
          exact hlive.2 x hx
        rw [hpad] at hj
        rw [Recheck.along_cons_of_rejected hst hs hj, hrest, hcount, hpadded]
        simp [paddedJoins, hpad, hopt, Functor.map, Except.map]

/-! What is left after several nodes were demoted. -/

theorem sameWiring_demotes (g : Graph) (ids : List NodeId) :
    g.SameWiring (ids.foldl Recheck.demote g) := by
  induction ids generalizing g with
  | nil => exact .refl g
  | cons id ids ih => exact (Recheck.sameWiring_demote g id).symm.trans (ih _)

theorem node?_demotes (g : Graph) (ids : List NodeId) (x : NodeId) :
    (ids.foldl Recheck.demote g).node? x = if x ∈ ids then
      (g.node? x).map ({ · with state := .rejected .runtimeShapeMismatch, assumption := none })
      else g.node? x := by
  induction ids generalizing g with
  | nil => rfl
  | cons id ids ih =>
    rw [List.foldl_cons, ih, node?_demote]
    by_cases hid : x = id <;> by_cases hx : x ∈ ids <;> simp [hid, hx, Function.comp_def]

theorem layout_demotes (g : Graph) (ids : List NodeId) (x : NodeId) :
    (ids.foldl Recheck.demote g).layout x = g.layout x := by
  induction ids generalizing g with
  | nil => rfl
  | cons id ids ih => exact (ih _).trans (Recheck.layout_demote g id x)

theorem edges_demotes (g : Graph) (ids : List NodeId) :
    (ids.foldl Recheck.demote g).sharing.edges =
      g.sharing.edges.filter fun e => ids.all fun id => !Sharing.lendsTo id e := by
  induction ids generalizing g with
  | nil => simp
  | cons id ids ih =>
    rw [List.foldl_cons, ih, Recheck.sharing_demote, Sharing.detach, List.filter_filter]
    exact List.filter_congr fun e _ => by simp [Bool.and_comm]

theorem AtRest.demote_all (k : g.AtRest) (hnodup : ids.Nodup)
    (hids : ∀ x ∈ ids, g.isOptimizedAt x = true) : (ids.foldl Recheck.demote g).AtRest := by
  induction ids generalizing g with
  | nil => exact k
  | cons id ids ih =>
    obtain ⟨hid, hnodup⟩ := List.nodup_cons.1 hnodup
    rw [List.forall_mem_cons] at hids
    refine ih (k.demote hids.1) hnodup fun x hx => ?_
    have hne : x ≠ id := fun he => hid (he ▸ hx)
    simp [isOptimizedAt_demote, hne, hids.2 x hx]

/-- The owners of padded slices. -/
theorem AtRest.mem_paddedJoins (k : g.AtRest) : x ∈ g.paddedJoins g.order ↔
    ∃ m i axis before extent l, ⟨x, m, .slice i axis before extent⟩ ∈ g.sharing.edges ∧
      g.layout m = .ok l ∧ l.padding.isZero = false := by
  rw [paddedJoins, List.mem_filter, k.sound.mem_order, Bool.and_eq_true, isOptimizedAt_iff]
  constructor
  · rintro ⟨hlive, ⟨into, offset, hst⟩, hpad⟩
    obtain ⟨n, hn⟩ := contains_iff.1 hlive
    obtain ⟨⟨axis, hop⟩, m, hm, l, hl, hz⟩ := (joinsPadded_iff hn).1 hpad
    obtain ⟨-, -, hall⟩ := k.linked.inPlace_of_joins hst ⟨n, hn, hop⟩
    obtain ⟨i, hi⟩ := List.mem_iff_getElem?.1 hm
    obtain ⟨before, extent, he⟩ := hall ((input_eq_ok hn).2 hi)
    exact ⟨m, i, axis, before, extent, l, he, hl, hz⟩
  · rintro ⟨m, i, axis, before, extent, l, he, hl, hz⟩
    obtain ⟨hst, ⟨n, hn, hop⟩, hin⟩ := k.linked.owner he
    have hm : m ∈ n.inputs := List.mem_of_getElem? ((input_eq_ok hn).1 hin)
    refine ⟨contains_iff.2 ⟨n, hn⟩, ⟨x, 0, hst⟩, ?_⟩
    exact (joinsPadded_iff hn).2 ⟨⟨axis, hop⟩, m, hm, l, hl, hz⟩

/-- Concatenations lie in no other buffer, so with the decision about one only its slices go. -/
theorem AtRest.lendsTo_eq (k : g.AtRest) {e : SharingEdge} (he : e ∈ g.sharing.edges)
    (hx : x ∈ g.paddedJoins g.order) :
    Sharing.lendsTo x e = (e.owner == x && e.placement.isSlice) := by
  have hne : e.member ≠ x := by
    rintro rfl
    obtain ⟨m, i, axis, before, extent, -, hs, -⟩ := k.mem_paddedJoins.1 hx
    obtain ⟨hst, hjoins, -⟩ := k.linked.owner hs
    obtain ⟨o, m', placement⟩ := e
    cases placement with
    | view offset => exact (k.linked.view he).2.2 axis hjoins
    | slice => exact k.linked.not_optimized he hst
  simp [Sharing.lendsTo, hne]

/-- With the decisions about concatenations nothing goes but their slices. -/
theorem AtRest.edges_demotes (k : g.AtRest) :
    ((g.paddedJoins g.order).foldl Recheck.demote g).sharing.edges = g.sharing.edges.filter
      fun e => !(decide (e.owner ∈ g.paddedJoins g.order) && e.placement.isSlice) := by
  rw [Graph.edges_demotes]
  refine List.filter_congr fun e he => ?_
  rw [Bool.eq_iff_iff, List.all_eq_true]
  constructor
  · intro hall
    by_cases ho : e.owner ∈ g.paddedJoins g.order
    · have hlends := hall _ ho
      rw [k.lendsTo_eq he ho] at hlends
      simpa [ho] using hlends
    · simp [ho]
  · intro hkept x hx
    rw [k.lendsTo_eq he hx]
    by_cases ho : e.owner = x
    · subst ho
      simpa [hx] using hkept
    · simp [ho]

theorem AtRest.recheck (k : g.AtRest) : g.recheck .standard =
    ((g.paddedJoins g.order).foldl Recheck.demote g,
      .ok ⟨g.order.countP g.isOptimizedAt, g.paddedJoins g.order⟩) :=
  k.along k.sound.ordered.nodup.1 fun _ hx => k.sound.mem_order.1 hx

/-- After that no slice with padding is left. -/
theorem AtRest.rechecked (k : g.AtRest) :
    ((g.paddedJoins g.order).foldl Recheck.demote g).AtRest ∧
      ((g.paddedJoins g.order).foldl Recheck.demote g).paddedJoins
        ((g.paddedJoins g.order).foldl Recheck.demote g).order = [] := by
  have hsub : (g.paddedJoins g.order).Sublist g.order := List.filter_sublist
  have hopt : ∀ x ∈ g.paddedJoins g.order, g.isOptimizedAt x = true := by
    intro x hx
    have hx := (List.mem_filter.1 hx).2
    rw [Bool.and_eq_true] at hx
    exact hx.1
  have k' := k.demote_all (k.sound.ordered.nodup.1.sublist hsub) hopt
  refine ⟨k', List.eq_nil_iff_forall_not_mem.2 fun x hx => ?_⟩
  obtain ⟨m, i, axis, before, extent, l, he, hl, hz⟩ := k'.mem_paddedJoins.1 hx
  rw [k.edges_demotes, List.mem_filter] at he
  have hl : g.layout m = .ok l := (layout_demotes g _ m).symm.trans hl
  have hmem := k.mem_paddedJoins.2 ⟨m, i, axis, before, extent, l, he.1, hl, hz⟩
  simp [hmem, Placement.isSlice, Placement.isView] at he

end Graph

/-- A recheck that has made decisions about `done` and carried them out. -/
structure Settling (r g : Graph) (done : List NodeId) : Prop where
  rechecked : Rechecked r g done
  rests : ∀ x ∈ done, g.isOptimizedAt x = true → ∃ p, g.Rests x p

namespace Settling

variable (k : Settling r g done)

include k

theorem skip (hready : ∀ a, r.Feeds a id → a ∈ done)
    (hst : ∀ into offset, g.state? id ≠ some (.optimized into offset)) :
    Settling r g (id :: done) where
  rechecked := k.rechecked.skip hready hst
  rests := by
    intro x hx hopt
    rcases List.mem_cons.1 hx with rfl | hx
    · obtain ⟨into, offset, h⟩ := isOptimizedAt_iff.1 hopt
      exact absurd h (hst into offset)
    · exact k.rests x hx hopt

/-- Layouts stay valid in a recheck. -/
theorem isValid (hlaid : ∀ x, r.contains x = true → ∃ l, r.layout x = .ok l)
    {m : NodeId} {l : Layout} (hl : g.layout m = .ok l) : l.isValid = true := by
  obtain ⟨n, hn, -⟩ := layout_eq_ok.1 hl
  have hlive : r.contains m = true :=
    (k.rechecked.rechecking.wiring.contains_eq m).symm.trans (contains_iff.2 ⟨n, hn⟩)
  obtain ⟨l₀, hl₀⟩ := hlaid m hlive
  obtain ⟨padding, hl', halloc⟩ := k.rechecked.padded.layout hl₀
  obtain rfl := Except.ok.inj (hl.symm.trans hl')
  exact Layout.isValid_of_isAllocatable halloc

theorem step (hr : r.Sound) (hlaid : ∀ x, r.contains x = true → ∃ l, r.layout x = .ok l)
    (hnew : id ∉ done) (hready : ∀ a, r.Feeds a id → a ∈ done)
    {into : NodeId} {offset : Nat} (hst : g.state? id = some (.optimized into offset))
    {demoted : List NodeId} (step : Recheck.Step g id h demoted) :
    Settling r h (id :: done) where
  rechecked := k.rechecked.step hr hnew hready hst step
  rests := by
    have hs := k.rechecked.sound hr
    have hl := k.rechecked.rechecking.linked
    have hopt : g.isOptimizedAt id = true := isOptimizedAt_iff.2 ⟨into, offset, hst⟩
    have hlater : ∀ x ∈ done, ¬ g.Feeds id x := fun x hx hf =>
      hnew (k.rechecked.closed (k.rechecked.rechecking.wiring.feeds hf) hx)
    intro x hx hxo
    by_cases hid : x = id
    · subst hid
      cases step with
      | @renew p _ a => exact ⟨p, .of_renewed hs hl hopt (fun _ _ => k.isValid hlaid) a⟩
      | demote _ => simp [isOptimizedAt_demote] at hxo
    · have hd := (List.mem_cons.1 hx).resolve_left hid
      cases step with
      | renew a =>
        rw [isOptimizedAt, a.placed.state_eq hid] at hxo
        obtain ⟨p, hp⟩ := k.rests x hd hxo
        exact ⟨p, hp.renew hs hl hid hopt (hlater x hd) a⟩
      | demote _ =>
        rw [isOptimizedAt_demote, Bool.and_eq_true] at hxo
        obtain ⟨p, hp⟩ := k.rests x hd hxo.2
        exact ⟨p, hp.demote hs hl hid hopt⟩

end Settling

/-- A recheck leaves its decisions carried out. -/
theorem atRest_recheck (hr : r.Sound) (hl : r.Linked)
    (hpad : ∀ {x l}, r.layout x = .ok l → l.padding = .zero l.rank ∧ l.isValid = true)
    (hlaid : ∀ x, r.contains x = true → ∃ l, r.layout x = .ok l)
    {report : RecheckReport} (h : r.recheck .standard = (f, .ok report)) : f.AtRest := by
  have k : Settling r f (r.order.reverse ++ []) := by
    refine Recheck.along_induction (h := r) (I := fun g done _ => Settling r g done) ⟨0, []⟩ ?_ ?_
      hr.ordered ⟨rechecked_of_linked hl hpad, by simp⟩ h
    · exact fun k _ hready hst => k.skip hready hst
    · exact fun k hnew hready hst step => k.step hr hlaid hnew hready hst step
  refine ⟨k.rechecked.sound hr, k.rechecked.rechecking.linked, fun x hx => ?_⟩
  refine k.rests x ?_ hx
  obtain ⟨into, offset, hst⟩ := isOptimizedAt_iff.1 hx
  obtain ⟨n, hn, -⟩ := Option.map_eq_some_iff.1 hst
  have hlive : r.contains x = true :=
    (k.rechecked.rechecking.wiring.contains_eq x).symm.trans (contains_iff.2 ⟨n, hn⟩)
  simpa using hr.mem_order.2 hlive

/-- Rechecking an executed graph for a second time, with nothing resolved in between. It succeeds
and looks at every optimized node. It takes the concatenations back that own a slice with padding,
and only them: they lose their assumption and their slices. All else stays as it is, and a third
recheck changes nothing. -/
theorem Graph.Built.recheck_again {b : Graph} (hb : b.Built) {config : BuildConfig} {p : Program}
    (hp : Program.build config b = .ok p) (hr : p.graph.resolve tensors = (r, .ok values))
    {report : RecheckReport} (hrec : r.recheck .standard = (f, .ok report)) :
    ∃ h ids, f.recheck .standard = (h, .ok ⟨f.order.countP f.isOptimizedAt, ids⟩) ∧
      ids.Sublist f.order ∧
      (∀ x, x ∈ ids ↔ ∃ m i axis before extent l,
        ⟨x, m, .slice i axis before extent⟩ ∈ f.sharing.edges ∧ f.layout m = .ok l ∧
          l.padding.isZero = false) ∧
      (∀ x, h.node? x = if x ∈ ids then
        (f.node? x).map ({ · with state := .rejected .runtimeShapeMismatch, assumption := none })
        else f.node? x) ∧
      h.sharing.edges =
        f.sharing.edges.filter (fun e => !(decide (e.owner ∈ ids) && e.placement.isSlice)) ∧
      f.SameWiring h ∧ (ids = [] → h = f) ∧
      h.recheck .standard = (h, .ok ⟨h.order.countP h.isOptimizedAt, []⟩) := by
  obtain ⟨b', c, -⟩ := hb.fusion hp
  have kr := c.sound'.resolved hr
  have hs : r.Sound := kr.relaid.wiring.sound c.sound'
  have hl : r.Linked := c.linked.congr kr.relaid.wiring kr.relaid.state kr.relaid.sharing
  have hlaid : ∀ x, r.contains x = true → ∃ l, r.layout x = .ok l := fun x hx => by
    obtain ⟨_, _, l, -, -, hl, -⟩ := kr.inferred x hx
    exact ⟨l, hl⟩
  have k : f.AtRest := atRest_recheck hs hl kr.inferred.layout hlaid hrec
  obtain ⟨k', hnil⟩ := k.rechecked
  have hthird := k'.recheck
  rw [hnil] at hthird
  refine ⟨_, _, k.recheck, List.filter_sublist, fun x => k.mem_paddedJoins, node?_demotes f _,
    k.edges_demotes, sameWiring_demotes f _, fun hno => ?_, hthird⟩
  rw [hno]
  rfl

/-- The sample, executed up to the kernels. -/
def sampleRechecked : Graph := ((sampleProgram.graph.resolve
  [(0, ⟨[2, 2], .f32, List.replicate 16 0⟩)]).1.recheck .standard).1

/-- The slices of the two transposes have padding, so the concatenation is taken back. The view of
it stays. -/
theorem recheck_again_sample : ∃ h, sampleRechecked.recheck .standard = (h, .ok ⟨2, [3]⟩) ∧
    h.state? 3 = some (.rejected .runtimeShapeMismatch) ∧
    h.state? 4 = some (.optimized 3 0) ∧ h.sharing.edges = [⟨3, 4, .view 0⟩] ∧
    h.recheck .standard = (h, .ok ⟨1, []⟩) := by
  have hbuild : Program.build .standard sample = .ok sampleProgram := rfl
  obtain ⟨h, ids, hagain, -, -, hnode, hedges, w, -, hthird⟩ := built_sample.recheck_again hbuild
    (show sampleProgram.graph.resolve [(0, ⟨[2, 2], .f32, List.replicate 16 0⟩)] =
      (_, .ok _) from rfl)
    (show Graph.recheck _ .standard = (sampleRechecked, .ok _) from rfl)
  have heval : (sampleRechecked.recheck .standard).2 = .ok ⟨2, [3]⟩ := rfl
  rw [hagain] at heval
  obtain ⟨-, rfl⟩ := RecheckReport.mk.inj (Except.ok.inj heval)
  have hcount : h.order.countP h.isOptimizedAt = 1 := by
    have hopt : h.isOptimizedAt = fun x => decide (x ≠ 3) && sampleRechecked.isOptimizedAt x := by
      funext x
      rw [isOptimizedAt, isOptimizedAt, state?, state?, hnode]
      by_cases hx : x = 3
      · subst hx
        rfl
      · simp [hx]
    rw [hopt, ← w.order_eq]
    rfl
  rw [hcount] at hthird
  exact ⟨h, hagain, by rw [state?, hnode]; rfl, by rw [state?, hnode]; rfl, hedges, hthird⟩

/-- A second recheck of the sample is not clean: it changes the state of the concatenation and drops
its slices. -/
theorem recheck_sample_not_idempotent : sample.Built ∧
    Program.build .standard sample = .ok sampleProgram ∧
    ∃ r values f h, sampleProgram.graph.resolve [(0, ⟨[2, 2], .f32, List.replicate 16 0⟩)] =
        (r, .ok values) ∧ r.recheck .standard = (f, .ok ⟨2, []⟩) ∧
      f.recheck .standard = (h, .ok ⟨2, [3]⟩) ∧ f.state? 3 = some (.optimized 3 0) ∧
      h.state? 3 = some (.rejected .runtimeShapeMismatch) ∧
      f.sharing.edges.length = 3 ∧ h.sharing.edges.length = 1 :=
  ⟨built_sample, rfl, _, _, _, _, rfl, rfl, rfl, rfl, rfl, rfl, rfl⟩

end BufferFusion
