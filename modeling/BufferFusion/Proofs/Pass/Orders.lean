import BufferFusion.Proofs.Execution.Revalidation
import BufferFusion.Proofs.Pass.Answers
import BufferFusion.Proofs.Pass.Outcome

/-!
# The order of fusion

Fusion visits the nodes in some order that has every producer before its consumers. Which one does
not matter: the pass decides the same about every node, places the same nodes in the same buffers
and leaves the same layouts.
-/
namespace BufferFusion

open Graph Pass

variable {b g : Graph} {d d' : NodeId → Decision} {done ids : List NodeId} {id : NodeId}

theorem Pass.fuseAlong_cons (t : FusionRules) {s : FusionState} (hst : g.state? id = some s)
    (hterm : s.isTerminal = false) (ids : List NodeId) : fuseAlong t (id :: ids) g =
      match fuseNode t g id with
      | (g', .error e) => (g', .error e)
      | (g', .ok ()) => ((fuseAlong t ids g').1, (fun _ => true) <$> (fuseAlong t ids g').2) := by
  obtain ⟨n, hn, rfl⟩ := Option.map_eq_some_iff.1 hst
  rw [fuseAlong, hn]
  exact if_neg (Bool.eq_false_iff.1 hterm)

namespace Graph

/-- `d` says of a node what the pass decides once the producers are decided about as `d` says. -/
def DecidedAt (b : Graph) (d : NodeId → Decision) (id : NodeId) : Prop :=
  ∃ g done, b.Follows d g done ∧ id ∉ done ∧ (∀ a, b.Feeds a id → a ∈ done) ∧
    decide g id = .ok (d id)

/-- What is decided about a node depends on the decisions about its producers only. -/
theorem DecidedAt.decide_eq (k : b.DecidedAt d id) (hb : b.Sound) (hg : b.Follows d g done)
    (hid : id ∉ done) (hready : ∀ a, b.Feeds a id → a ∈ done) :
    decide g id = .ok (d id) := by
  obtain ⟨h, done', hh, hid', hready', hd⟩ := k
  have halike : h.AlikeAt g id := hh.alikeAt hb hg hid' hid hready' hready
  rw [Pass.decide, halike.judge_eq (hh.wiring.symm.sound hb)]
  exact hd

namespace Follows

/-- The pass follows decisions that are made of every node on its way. -/
theorem along (k : b.Follows d g done) (hu : b.Unfused) (ho : b.Ordered done ids)
    (hall : ∀ id ∈ ids, b.DecidedAt d id) : ∃ f, fuseAlong .standard ids g =
      (f, .ok (!ids.isEmpty)) ∧ b.Follows d f (ids.reverse ++ done) := by
  induction ids generalizing g done with
  | nil => exact ⟨g, rfl, k⟩
  | cons id ids ih =>
    obtain ⟨hid, hlive, hready, hrest⟩ := ho
    have hd := (hall id List.mem_cons_self).decide_eq hu.sound k hid hready
    obtain ⟨hfuse, hstep⟩ := k.step hu hid hlive hready hd
    obtain ⟨f, hf, hfollows⟩ := ih hstep hrest fun a ha => hall a (List.mem_cons_of_mem _ ha)
    refine ⟨f, ?_, ?_⟩
    · rw [fuseAlong_cons _ (k.state?_of_not_mem hu hid hlive) rfl, hfuse]
      simp only [hf]
      rfl
    · rw [List.reverse_cons, List.append_assoc]
      exact hfollows

/-- A run in which no size overflows decides about every node on its way. -/
theorem exists_decided (k : b.Follows d g done) (hu : b.Unfused) (ho : b.Ordered done ids)
    (hov : (fuseAlong .standard ids g).2 ≠ .error (.fault .overflow)) :
    ∃ d', (∀ i ∈ done, d' i = d i) ∧ ∀ id ∈ ids, b.DecidedAt d' id := by
  induction ids generalizing g d done with
  | nil => exact ⟨d, fun _ _ => rfl, by simp⟩
  | cons id ids ih =>
    obtain ⟨hid, hlive, hready, hrest⟩ := ho
    have hst := k.state?_of_not_mem hu hid hlive
    rw [fuseAlong_cons _ hst rfl] at hov
    obtain ⟨a, ha⟩ : ∃ a, decide g id = .ok a := by
      have hanswers : (decide g id).OnlyOverflow :=
        (k.fused.padded.judge_onlyOverflow hu.sound hu.yielded k.wiring
          (k.wiring.contains_eq id ▸ hlive)).map _
      refine hanswers.eq_ok fun herr => hov ?_
      rw [k.fused.fusing.fuseNode_eq hu.sound hid hst rfl, herr]
    have hkeep : ∀ i ∈ done, Function.update d id a i = d i := by
      intro i hmem
      apply Function.update_of_ne
      rintro rfl
      exact hid hmem
    have hd : decide g id = .ok (Function.update d id a id) := by
      rw [Function.update_self, ha]
    obtain ⟨hfuse, hstep⟩ := (k.congr hkeep).step hu hid hlive hready hd
    rw [hfuse] at hov
    obtain ⟨d', hd', hall⟩ := ih hstep hrest fun herr => hov (by simp only [herr]; rfl)
    have hkeep' : ∀ i ∈ done, d' i = d i := fun i hi =>
      (hd' i (List.mem_cons_of_mem _ hi)).trans (hkeep i hi)
    refine ⟨d', hkeep', fun x hx => ?_⟩
    rcases List.mem_cons.1 hx with rfl | hx
    · refine ⟨g, done, k.congr hkeep', hid, hready, ?_⟩
      rw [hd' x List.mem_cons_self]
      exact hd
    · exact hall x hx

end Follows

theorem Sound.unfused {g₀ : Graph} (hs : g₀.Sound) {values : InputValues} {changed : Bool}
    (hi : InferenceTable.standard.inferGraph values g₀ = (g, .ok changed))
    (hst : ∀ x n, g.node? x = some n → n.state = .unanalyzed) (he : g.sharing.edges = []) :
    g.Unfused := by
  obtain ⟨r, hinf⟩ := hs.inferGraph hi
  exact ⟨r.wiring.sound hs, fun hn => hst _ _ hn, he, hinf.yielded⟩

instance decidableOrdered (g : Graph) :
    (done ids : List NodeId) → Decidable (g.Ordered done ids)
  | _, [] => isTrue trivial
  | done, id :: ids =>
    have : Decidable (∀ p, g.Feeds p id → p ∈ done) :=
      decidable_of_iff (∀ n ∈ g.node? id, ∀ p ∈ n.inputs, p ∈ done)
        ⟨fun h p ⟨n, hn, hp⟩ => h n hn p hp, fun h n hn p hp => h p ⟨n, hn, hp⟩⟩
    have := decidableOrdered g (id :: done) ids
    inferInstanceAs (Decidable (_ ∧ _ ∧ _ ∧ _))

/-- Two orders of a graph list the same nodes. -/
theorem Ordered.perm {ids' : List NodeId} (ho : g.Ordered [] ids) (ho' : g.Ordered [] ids')
    (hall : ∀ x, g.contains x = true → x ∈ ids) (hall' : ∀ x, g.contains x = true → x ∈ ids') :
    ids.Perm ids' := by
  apply (List.perm_ext_iff_of_nodup ho.nodup.1 ho'.nodup.1).2
  intro x
  exact ⟨fun hx => hall' x (ho.live x hx), fun hx => hall x (ho'.live x hx)⟩

/-- Fusion of a graph that was just inferred decides the same about every node, whatever order it
visits the nodes in, as long as no size overflows. -/
theorem Sound.fuse_any_order {g₀ : Graph} (hs : g₀.Sound) {values : InputValues} {changed : Bool}
    (hi : InferenceTable.standard.inferGraph values g₀ = (g, .ok changed))
    (hst : ∀ x n, g.node? x = some n → n.state = .unanalyzed) (he : g.sharing.edges = [])
    {ids ids' : List NodeId} (ho : g.Ordered [] ids) (ho' : g.Ordered [] ids')
    (hall : ∀ x, g.contains x = true → x ∈ ids) (hall' : ∀ x, g.contains x = true → x ∈ ids')
    (hov : (fuseAlong .standard ids g).2 ≠ .error (.fault .overflow)) :
    ∃ f f' fused, fuseAlong .standard ids g = (f, .ok fused) ∧
      fuseAlong .standard ids' g = (f', .ok fused) ∧ (∀ x, f'.node? x = f.node? x) ∧
        f'.sharing.edges.Perm f.sharing.edges := by
  have hu := hs.unfused hi hst he
  have hperm := ho.perm ho' hall hall'
  obtain ⟨d, -, hd⟩ := (hu.follows fun _ => .rejected .noFusionRule).exists_decided hu ho hov
  obtain ⟨f, hf, k⟩ := (hu.follows d).along hu ho hd
  obtain ⟨f', hf', k'⟩ := (hu.follows d).along hu ho' fun x hx => hd x (hperm.mem_iff.2 hx)
  rw [List.append_nil] at k k'
  have hmem : ∀ x, x ∈ ids'.reverse ↔ x ∈ ids.reverse := by
    intro x
    rw [List.mem_reverse, List.mem_reverse, hperm.mem_iff]
  refine ⟨f, f', !ids.isEmpty, hf, ?_, fun x => ?_, ?_⟩
  · rw [hf', hperm.isEmpty_eq]
  · rw [k'.node, k.node, funext (outcome_congr (fun _ _ => rfl) hmem x)]
  · have hrev : ids'.reverse.Perm ids.reverse :=
      (List.reverse_perm _).trans (hperm.symm.trans (List.reverse_perm _).symm)
    exact k'.sharing.trans ((hrev.flatMap_right _).trans k.sharing.symm)

/-- The two transposes of the sample in either order. -/
theorem fuse_any_order_sample : ∃ f f' fused,
    fuseAlong .standard [0, 1, 2, 3, 4] inferredSample = (f, .ok fused) ∧
      fuseAlong .standard [0, 2, 1, 3, 4] inferredSample = (f', .ok fused) ∧
        (∀ x, f'.node? x = f.node? x) ∧ f'.sharing.edges.Perm f.sharing.edges := by
  have hi : InferenceTable.standard.inferGraph [] sample = (inferredSample, .ok true) := rfl
  have hr := relaid_inferAlong .standard [] sample.order sample
  have hlt : ∀ x, inferredSample.contains x = true → x < 5 := fun x hx =>
    (hr.wiring.sound built_sample.sound).lt_of_contains hx
  have hall : ∀ x < 5, x ∈ [0, 1, 2, 3, 4] ∧ x ∈ [0, 2, 1, 3, 4] := by decide
  apply @Sound.fuse_any_order _ _ built_sample.sound _ _ hi
  · exact fun x n hn => (built_sample.fresh.relaid hr).state hn
  · rfl
  · decide
  · decide
  · exact fun x hx => (hall x (hlt x hx)).1
  · exact fun x hx => (hall x (hlt x hx)).2
  · have hok : (fuseAlong .standard [0, 1, 2, 3, 4] inferredSample).2 = .ok true := rfl
    rw [hok]
    nofun

end Graph
end BufferFusion
