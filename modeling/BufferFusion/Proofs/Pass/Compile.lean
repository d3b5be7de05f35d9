import BufferFusion.Proofs.Pass.Orders
import BufferFusion.Proofs.Pass.Shortcut

/-!
# Compiling with and without fusion

A graph is inferred in the same way for both. So what compiles without fusion compiles with it,
unless a size overflows there, to a graph in which the identities may have been cut short.
-/
namespace BufferFusion

open Graph Pass

variable {b g : Graph} {p : Program} {dynamic remove remove' : Bool}

/-- Fusing answers unless a size overflows. -/
theorem Graph.Unfused.fuseAlong_ok (hu : b.Unfused)
    (hov : (fuseAlong .standard b.order b).2 ≠ .error (.fault .overflow)) :
    ∃ f fused, fuseAlong .standard b.order b = (f, .ok fused) := by
  obtain ⟨d, -, hd⟩ :=
    (hu.follows fun _ => .rejected .noFusionRule).exists_decided hu hu.sound.ordered hov
  obtain ⟨f, hf, -⟩ := (hu.follows d).along hu hu.sound.ordered hd
  exact ⟨f, _, hf⟩

/-- What a compilation without fusion answers. -/
theorem Graph.Built.build_unfused (hb : g.Built)
    (hp : Program.build ⟨false, dynamic, remove⟩ g = .ok p) : p.limit = none ∧
      (∃ changed, runInference .standard ⟨false, dynamic, remove⟩ g = (p.graph, .ok changed)) ∧
        g.Relaid p.graph ∧ p.graph.Inferred [] := by
  obtain ⟨f, hf, hp⟩ := Result.bind_eq_ok.1 hp
  obtain rfl := Except.ok.inj hp
  rw [Program.byStage_passes] at hf
  obtain ⟨g₁, changed, hi, hf⟩ := runPasses_cons hf
  obtain rfl := Except.ok.inj hf
  exact ⟨rfl, ⟨changed, hi⟩, runInference_eq_ok hb.sound hi⟩

/-- What compiles with fusion compiles without it, as far as the inference of its layouts. -/
theorem Graph.build_unfused_of_fused (hp : Program.build ⟨true, dynamic, remove⟩ g = .ok p) :
    ∃ q, Program.build ⟨false, dynamic, remove'⟩ g = .ok q := by
  obtain ⟨f, hf, -⟩ := Result.bind_eq_ok.1 hp
  rw [Program.byStage_passes] at hf
  obtain ⟨g₁, changed, hi, -⟩ := runPasses_cons hf
  have hi : (Pass.inference .standard).run ⟨false, dynamic, remove'⟩ g = (g₁, .ok changed) := hi
  refine ⟨⟨g₁, ⟨false, dynamic, remove'⟩, none⟩, Result.bind_eq_ok.2 ⟨g₁, ?_, rfl⟩⟩
  rw [Program.byStage_passes]
  simp only [Program.passes, runPasses, hi]
  rfl

/-- What compiles without fusion compiles with it. -/
theorem Graph.Built.build_fused (hb : g.Built)
    (hp : Program.build ⟨false, dynamic, remove⟩ g = .ok p)
    (hov : Program.build ⟨true, dynamic, remove'⟩ g ≠ .error (.fault .overflow)) :
    ∃ p' f ρ, Program.build ⟨true, dynamic, remove'⟩ g = .ok p' ∧ p'.limit = none ∧
      Shortcut p.graph f ρ ∧ Compiled f p'.graph := by
  obtain ⟨-, ⟨changed, hi⟩, hrelaid, hinf⟩ := hb.build_unfused hp
  have hi : (Pass.inference .standard).run ⟨true, dynamic, remove'⟩ g = (p.graph, .ok changed) := hi
  have hs := hrelaid.wiring.sound hb.sound
  have hm : p.graph.marked.Nodup := hrelaid.wiring.marked ▸ hb.marked_nodup
  obtain ⟨f, ρ, k, hl, hf, hrun⟩ : ∃ f ρ, Shortcut p.graph f ρ ∧ f.Laid ∧ f.Fresh ∧
      runPasses ⟨true, dynamic, remove'⟩ (Program.passes ⟨true, dynamic, remove'⟩) g =
        runPasses ⟨true, dynamic, remove'⟩ [Pass.fusing .standard] f := by
    cases remove' with
    | false =>
      refine ⟨p.graph, id, hs.shortcut hm, hinf.laid, hb.fresh.relaid hrelaid, ?_⟩
      simp only [Program.passes, runPasses, hi]
      rfl
    | true =>
      obtain ⟨f, ρ, hrem, k, -⟩ := hs.removeAlong_order hm
      obtain ⟨-, hl, hf⟩ := removeAlong_keeps hs hinf.laid (hb.fresh.relaid hrelaid) p.graph.order
      rw [hrem] at hl hf
      refine ⟨f, ρ, k, hl, hf, ?_⟩
      have hrem : Pass.removeIdentity.run ⟨true, dynamic, true⟩ p.graph = (f, .ok _) := hrem
      simp only [Program.passes, if_true, List.singleton_append, runPasses, hi, hrem]
  have hu : f.Unfused := ⟨k.sound, hf.state, hf.sharing, hl.yielded⟩
  have hbuild : Program.build ⟨true, dynamic, remove'⟩ g = (do
      return ⟨← runPasses ⟨true, dynamic, remove'⟩ [Pass.fusing .standard] f,
        ⟨true, dynamic, remove'⟩, none⟩) := by
    rw [Program.build, Program.compile, Program.byStage_passes, hrun]
  cases hfuse : fuseAlong .standard f.order f with
  | mk c r =>
    have hrunfuse : (Pass.fusing .standard).run ⟨true, dynamic, remove'⟩ f = (c, r) := hfuse
    obtain ⟨c', fused, hok⟩ := hu.fuseAlong_ok fun hover => hov (by
      rw [hfuse] at hover
      obtain rfl : r = .error (.fault .overflow) := hover
      rw [hbuild, runPasses, hrunfuse]
      rfl)
    obtain ⟨rfl, rfl⟩ := Prod.mk.inj (hfuse.symm.trans hok)
    refine ⟨⟨c, ⟨true, dynamic, remove'⟩, none⟩, f, ρ, ?_, rfl, k,
      compiled_of_fuseAlong k.sound hl hf hfuse⟩
    rw [hbuild, runPasses, hrunfuse]
    rfl

end BufferFusion
