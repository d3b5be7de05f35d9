import BufferFusion.Program
import BufferFusion.Proofs.Execution.Revalidation
import BufferFusion.Proofs.Inference.Identity

/-!
# Views whose buffer is gone

A view has no buffer of its own and runs no kernel, so the node that it lies in has to stay.
Fusion leaves every view with one. Replacing a node leaves the decisions about the other nodes as
they are and forgets the edges of the node that goes, so exactly the views of that node are left
without a buffer, and removing identities after fusion can do that.
-/
namespace BufferFusion

open Graph Relation

namespace Graph

variable {b f g h : Graph} {old new x : NodeId}

/-- The output of every view lies in the buffer of a node that is there. -/
def Backed (g : Graph) : Prop :=
  ∀ x into offset, g.state? x = some (.optimized into offset) → into ≠ x →
    g.contains into = true ∧ ∃ off, ⟨into, x, .view off⟩ ∈ g.sharing.edges

def Replaces (g h : Graph) : Prop := ∃ old new rewire, g.replace old new rewire = .ok h

/-- Removing identities is a number of replacements. -/
theorem Sound.replaces_removeAlong (hs : g.Sound) (ids : List NodeId) :
    ReflTransGen Replaces g (Pass.removeAlong ids g).1 := by
  have hI := removeAlong_induction (g := g) (I := fun h => h.Sound ∧ ReflTransGen Replaces g h)
    (fun {h h' old new n} hI _ hrep => ?_) (fun hI => hI.1) ⟨hs, .refl⟩ ids
  · exact hI.2
  · exact ⟨hI.1.replace hrep, hI.2.tail ⟨old, new, true, hrep⟩⟩

/-- `g` is `f` without some of its nodes: of those that are left the decisions stand, and they
share what they shared among themselves. -/
structure Pruned (f g : Graph) : Prop where
  sound : g.Sound
  state : ∀ {x}, g.contains x = true → g.state? x = f.state? x
  sharing : ∀ {e}, e ∈ g.sharing.edges ↔
    e ∈ f.sharing.edges ∧ g.contains e.owner = true ∧ g.contains e.member = true

theorem contains_of_state? {s : FusionState} (hx : g.state? x = some s) : g.contains x = true := by
  obtain ⟨n, hn, -⟩ := Option.map_eq_some_iff.1 hx
  exact contains_iff.2 ⟨n, hn⟩

theorem Linked.live (k : g.Linked) (hs : g.Sound) {e : SharingEdge} (he : e ∈ g.sharing.edges) :
    g.contains e.owner = true ∧ g.contains e.member = true := by
  obtain ⟨owner, member, _ | _⟩ := e
  · obtain ⟨hst, hin, -⟩ := k.view he
    obtain ⟨n, hn, -⟩ := Result.bind_eq_ok.1 hin
    have hn := get_eq_ok.1 hn
    exact ⟨hs.live (.of_input hn ((input_eq_ok hn).1 hin)), contains_of_state? hst⟩
  · obtain ⟨⟨s, hst, -⟩, -⟩ := k.writer he
    exact ⟨contains_of_state? (k.owner he).1, contains_of_state? hst⟩

theorem Linked.pruned (k : g.Linked) (hs : g.Sound) : Pruned g g :=
  ⟨hs, fun _ => rfl, fun {_} => ⟨fun he => ⟨he, k.live hs he⟩, fun he => he.1⟩⟩

/-- What one replacement leaves. -/
theorem Pruned.replace (k : Pruned f g) {rewire : Bool} (hr : g.replace old new rewire = .ok h) :
    Pruned f h := by
  have hrep := k.sound.replaced hr
  refine ⟨k.sound.replace hr, fun {x} hx => ?_, fun {e} => ?_⟩
  · obtain ⟨hne, hlive⟩ := hrep.contains_iff.1 hx
    rw [← k.state hlive, state?, state?, hrep.node?, if_neg hne, Option.map_map]
    rfl
  · have htouch : e.touches old = false ↔ e.owner ≠ old ∧ e.member ≠ old := by
      simp [SharingEdge.touches]
    rw [hrep.sharing, Sharing.mem_removeNode, k.sharing, htouch, hrep.contains_iff,
      hrep.contains_iff]
    tauto

theorem Pruned.replaces (k : Pruned f g) (hr : ReflTransGen Replaces g h) : Pruned f h := by
  induction hr with
  | refl => exact k
  | tail _ hrep ih =>
    obtain ⟨old, new, rewire, hrep⟩ := hrep
    exact ih.replace hrep

/-- Where nodes have gone, the views of those that stayed are backed and no others. -/
theorem Pruned.backed_iff (k : Pruned f g) (hl : f.Linked) : g.Backed ↔
    ∀ x into offset, f.state? x = some (.optimized into offset) → g.contains x = true →
      g.contains into = true := by
  constructor
  · intro hb x into offset hx hlive
    by_cases hself : into = x
    · rwa [hself]
    · exact (hb x into offset ((k.state hlive).trans hx) hself).1
  · intro hall x into offset hx hself
    have hlive := contains_of_state? hx
    have hf := (k.state hlive).symm.trans hx
    have hinto := hall x into offset hf hlive
    have hedge := hl.view_of_ne hf hself
    exact ⟨hinto, offset, k.sharing.2 ⟨hedge, hinto, hlive⟩⟩

/-- After fusion every view is backed. Once a node is replaced, they still are if and only if that
node had no views, and once identities are removed, if and only if none of them had a view that
stays. -/
theorem Sound.views_backed_iff (hs : b.Sound) (hst : ∀ x n, b.node? x = some n → n.state = .unanalyzed)
    (he : b.sharing.edges = []) {fused : Result Bool}
    (hf : Pass.fuseAlong .standard b.order b = (f, fused)) : f.Backed ∧
      (∀ {old new rewire g}, f.replace old new rewire = .ok g →
        (g.Backed ↔ ∀ x offset, x ≠ old → f.state? x ≠ some (.optimized old offset))) ∧
      ∀ {config g r}, Pass.removeIdentity.run config f = (g, r) →
        (g.Backed ↔ ∀ x into offset, f.state? x = some (.optimized into offset) →
          g.contains x = true → g.contains into = true) := by
  obtain ⟨done, k⟩ := fusing_fuseAlong hs (fun hn => hst _ _ hn) he
  rw [hf] at k
  have hsf : f.Sound := k.wiring.symm.sound hs
  have hpruned := k.linked.pruned hsf
  have hbacked : f.Backed := by
    intro x into offset hx hself
    have hedge := (k.linked.optimized hx).resolve_right fun hown => hself hown.1
    exact ⟨(k.linked.live hsf hedge).1, offset, hedge⟩
  refine ⟨hbacked, fun {old new rewire g} hr => ?_, fun {config g r} hr => ?_⟩
  · have hrep := hsf.replaced hr
    rw [(hpruned.replace hr).backed_iff k.linked]
    constructor
    · intro hall x offset hne hx
      have hlive := hrep.contains_iff.2 ⟨hne, contains_of_state? hx⟩
      exact (hrep.contains_iff.1 (hall x old offset hx hlive)).1 rfl
    · intro hno x into offset hx hlive
      have hne := (hrep.contains_iff.1 hlive).1
      by_cases hself : into = x
      · rwa [hself]
      · refine hrep.contains_iff.2 ⟨?_, (hbacked x into offset hx hself).1⟩
        rintro rfl
        exact hno x offset hne hx
  · have hrun := hsf.replaces_removeAlong f.order
    have hr : Pass.removeAlong f.order f = (g, r) := hr
    rw [hr] at hrun
    exact (hpruned.replaces hrun).backed_iff k.linked

/-- A vector put into its own format and read as a matrix. -/
def chainSample : Graph :=
  ((empty.place "vector" (.input (.plain (.ofSizes [4]) .f32)) []).place "copy"
    (.reorder .bfyx .f32) [0]).place "matrix" (.reshape (.pattern [2, 2]) false) [1]

theorem built_chainSample : chainSample.Built :=
  Built.empty.place rfl |>.place rfl |>.place rfl

/-- The sample with inferred layouts. -/
def inferredChain : Graph := (InferenceTable.standard.inferGraph [] chainSample).1

/-- The sample fused: the copy is a view of the vector, and the matrix is one of the copy. -/
def fusedChain : Graph := (Pass.fuseAlong .standard inferredChain.order inferredChain).1

/-- The matrix has no views, so it can go. -/
theorem views_backed_iff_fusedChain :
    fusedChain.Backed ∧ ∃ g, fusedChain.replace 2 1 true = .ok g ∧ g.Backed := by
  have hr : chainSample.Relaid inferredChain := relaid_inferAlong ..
  have hs : inferredChain.Sound := hr.wiring.sound built_chainSample.sound
  have hst : ∀ x n, inferredChain.node? x = some n → n.state = .unanalyzed :=
    fun _ _ hn => (built_chainSample.fresh.relaid hr).state hn
  obtain ⟨hbacked, hreplace, -⟩ :=
    hs.views_backed_iff hst rfl (show _ = (fusedChain, .ok true) from rfl)
  obtain ⟨g, hg⟩ : ∃ g, fusedChain.replace 2 1 true = .ok g := ⟨_, rfl⟩
  refine ⟨hbacked, g, hg, (hreplace hg).2 fun x offset _ hx => ?_⟩
  match x with
  | 0 | 1 | 2 | _ + 3 => cases hx

/-- Removing the copy from the compiled program leaves the matrix in the buffer of a node that is
gone. -/
theorem not_backed_without_copy : ∃ p p' : Program,
    Program.build ⟨true, true, false⟩ chainSample = .ok p ∧ p.graph = fusedChain ∧
      p.apply Pass.removeIdentity = (p', .ok true) ∧ ¬ p'.graph.Backed := by
  refine ⟨_, _, rfl, rfl, rfl, fun hb => ?_⟩
  exact Bool.false_ne_true (hb 2 1 0 rfl (by decide)).1

end Graph
end BufferFusion
