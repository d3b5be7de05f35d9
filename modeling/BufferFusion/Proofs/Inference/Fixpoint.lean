import BufferFusion.Proofs.Graph.Order
import BufferFusion.Proofs.Inference.Relaid
import BufferFusion.Proofs.Inference.Yields

/-!
# The fixpoint of inference

A graph that was inferred has, at every node, the layout that the node's operation yields from the
layouts of its inputs. Conversely, layouts of that kind are found by inference.
-/
namespace BufferFusion.Graph

variable {g h : Graph} {values : InputValues} {id : NodeId} {n : Node} {done ids : List NodeId}

/-- The layouts of several nodes. -/
def Lays (g : Graph) (ids : List NodeId) (ls : List Layout) : Prop :=
  List.Forall₂ (fun a l => g.layout a = .ok l) ids ls

/-- The values of a node that are known before it runs. -/
def given? (g : Graph) (values : InputValues) (id : NodeId) : Option (List Float) :=
  (g.node? id).bind fun n =>
    match n.op with
    | .constant _ xs => some xs
    | _ => values.lookup id

/-- The values that a reshape may read its pattern from. -/
def pattern? (g : Graph) (values : InputValues) (n : Node) : Option (List Float) :=
  n.inputs[1]?.bind (g.given? values)

theorem inputValues?_eq (g : Graph) (n : Node) (values : InputValues) :
    InferenceContext.inputValues? ⟨g, n, values⟩ 1 = g.pattern? values n := by
  simp only [InferenceContext.inputValues?, pattern?]
  cases n.inputs[1]? with
  | none => rfl
  | some a =>
    cases hn : g.node? a with
    | none => simp [given?, hn]
    | some p => cases hop : p.op <;> simp [given?, hn, hop]

theorem SameWiring.given?_eq (w : g.SameWiring h) (values : InputValues) (id : NodeId) :
    h.given? values id = g.given? values id := by
  simp only [given?]
  cases hn : g.node? id with
  | none =>
    have : h.node? id = none := by simpa [contains, hn] using (w.contains_eq id).symm
    rw [this]
  | some n =>
    obtain ⟨m, hm, -, -, -, hop⟩ := w.node hn
    rw [hm]
    rcases hop.eq_or_input with he | ⟨l, l', h₁, h₂⟩
    · simp [he]
    · simp [h₁, h₂]

theorem SameWiring.pattern?_eq (w : g.SameWiring h) (values : InputValues) (n : Node) :
    h.pattern? values n = g.pattern? values n := by
  rw [pattern?, pattern?, funext (w.given?_eq values)]

/-- The node has the layout that its operation yields. -/
def InferredAt (g : Graph) (values : InputValues) (id : NodeId) : Prop :=
  ∃ n ins l, g.node? id = some n ∧ g.Lays n.inputs ins ∧ g.layout id = .ok l ∧
    Infer.Yields (g.pattern? values n) n.op ins l ∧ l.isValid = true

def Inferred (g : Graph) (values : InputValues) : Prop :=
  ∀ id, g.contains id = true → g.InferredAt values id

theorem Inferred.exists_layouts (k : g.Inferred values) : ∃ L : NodeId → Layout,
    ∀ x, g.contains x = true → g.layout x = .ok (L x) := by
  refine ⟨fun x => (g.layout x).toOption.getD default, fun x hx => ?_⟩
  obtain ⟨_, _, l, _, _, hl, -⟩ := k x hx
  simp only [hl]
  rfl

theorem Lays.congr {ls : List Layout} (hl : g.Lays ids ls)
    (he : ∀ a ∈ ids, h.layout a = g.layout a) : h.Lays ids ls := by
  induction hl with
  | nil => exact .nil
  | cons hx _ ih =>
    refine .cons ((he _ List.mem_cons_self).trans hx) (ih fun a ha => ?_)
    exact he a (List.mem_cons_of_mem _ ha)

theorem Lays.getElem? {ls : List Layout} {l : Layout} {i : Nat} {x : NodeId} (h : g.Lays ids ls)
    (hx : ids[i]? = some x) (hl : g.layout x = .ok l) : ls[i]? = some l := by
  obtain ⟨hi, rfl⟩ := List.getElem?_eq_some_iff.1 hx
  have hi' : i < ls.length := h.length_eq ▸ hi
  rw [List.getElem?_eq_getElem hi']
  exact congrArg some (Except.ok.inj ((h.get hi hi').symm.trans hl))

theorem Lays.exists_of_mem {ls : List Layout} {l : Layout} (h : g.Lays ids ls) (hl : l ∈ ls) :
    ∃ x ∈ ids, g.layout x = .ok l := by
  obtain ⟨i, hi, rfl⟩ := List.mem_iff_getElem.1 hl
  have hi' : i < ids.length := h.length_eq ▸ hi
  exact ⟨ids[i], List.getElem_mem hi', h.get hi' hi⟩

theorem exists_lays (hl : ∀ a ∈ ids, ∃ l, g.layout a = .ok l) : ∃ ls, g.Lays ids ls := by
  induction ids with
  | nil => exact ⟨[], .nil⟩
  | cons a ids ih =>
    obtain ⟨l, hx⟩ := hl a List.mem_cons_self
    obtain ⟨ls, hls⟩ := ih fun b hb => hl b (List.mem_cons_of_mem _ hb)
    exact ⟨l :: ls, .cons hx hls⟩

theorem Lays.unique {ls ls' : List Layout} (hl : g.Lays ids ls) (hl' : g.Lays ids ls') :
    ls = ls' := by
  induction hl generalizing ls' with
  | nil => cases hl'; rfl
  | cons hx _ ih =>
    obtain _ | ⟨hx', hr⟩ := hl'
    rw [ih hr, Except.ok.inj (hx.symm.trans hx')]

theorem InferredAt.congr {values : InputValues} (k : g.InferredAt values id) (w : g.SameWiring h)
    (hop : ∀ n, g.node? id = some n → ∀ m, h.node? id = some m → m.op = n.op)
    (hid : h.layout id = g.layout id) (hin : ∀ a, g.Feeds a id → h.layout a = g.layout a) :
    h.InferredAt values id := by
  obtain ⟨n, ins, l, hn, hins, hl, hy, hv⟩ := k
  obtain ⟨m, hm, -, -, hmin, -⟩ := w.node hn
  refine ⟨m, ins, l, hm, ?_, hid.trans hl, ?_, hv⟩
  · rw [hmin]
    exact hins.congr fun a ha => hin a ⟨n, hn, ha⟩
  · rw [hop n hn m hm]
    have : h.pattern? values m = g.pattern? values n := by
      rw [w.pattern?_eq, pattern?, pattern?, hmin]
    rwa [this]

theorem inferNode_eq_ok (hs : g.Sound) (hn : g.node? id = some n) {ins : List Layout}
    (hins : g.Lays n.inputs ins) {l : Layout} :
    InferenceTable.standard.inferNode g values id = .ok l ↔
      Infer.Yields (g.pattern? values n) n.op ins l ∧ l.isValid = true := by
  have hget : g.get id = .ok n := get_eq_ok.2 hn
  rw [InferenceTable.inferNode, hget, ← inputValues?_eq]
  exact Infer.infer_eq_ok (hs.takes hn) hins

theorem setLayout_op {l : Layout} {x : NodeId} {m : Node} (hn : g.node? x = some n)
    (hm : (g.setLayout id l).node? x = some m) : m.op = n.op := by
  rw [node?_setLayout, hn] at hm
  split at hm
  · obtain rfl := Option.some.inj hm; rfl
  · obtain rfl := Option.some.inj hm; rfl

/-- What inference has reached: the nodes that are done have their layouts for good. -/
structure Inferring (h g : Graph) (values : InputValues) (done : List NodeId) : Prop where
  relaid : h.Relaid g
  closed : ∀ a b, h.Feeds a b → b ∈ done → a ∈ done
  inferred : ∀ x ∈ done, g.InferredAt values x

theorem Inferring.step (k : Inferring h g values done) (hs : h.Sound) (hnew : id ∉ done)
    (hready : ∀ a, h.Feeds a id → a ∈ done) {l : Layout}
    (hi : InferenceTable.standard.inferNode g values id = .ok l) :
    Inferring h (g.setLayout id l) values (id :: done) := by
  have r := relaid_setLayout g id l
  have hsg := k.relaid.wiring.sound hs
  obtain ⟨n, hn, -⟩ := Result.bind_eq_ok.1 hi
  have hn := get_eq_ok.1 hn
  have hlive : g.contains id = true := contains_iff.2 ⟨n, hn⟩
  have hkeep : ∀ a ∈ done, (g.setLayout id l).layout a = g.layout a := by
    intro a ha
    refine layout_setLayout_of_ne ?_ l
    rintro rfl
    exact hnew ha
  obtain ⟨ins, hins⟩ : ∃ ls, g.Lays n.inputs ls := exists_lays fun a ha => by
    obtain ⟨_, _, la, -, -, hla, -⟩ := k.inferred a (hready a (k.relaid.wiring.symm.feeds ⟨n, hn, ha⟩))
    exact ⟨la, hla⟩
  obtain ⟨hy, hv⟩ := (inferNode_eq_ok hsg hn hins).1 hi
  refine ⟨k.relaid.trans r, ?_, ?_⟩
  · intro a b hf hb
    rcases List.mem_cons.1 hb with rfl | hb
    · exact List.mem_cons_of_mem _ (hready a hf)
    · exact List.mem_cons_of_mem _ (k.closed a b hf hb)
  · intro x hx
    rcases List.mem_cons.1 hx with rfl | hx
    · refine ⟨{ n with layout := some l }, ins, l, by simp [node?_setLayout, hn], ?_,
        layout_setLayout_self hlive, ?_, hv⟩
      · exact hins.congr fun a ha => hkeep a (hready a (k.relaid.wiring.symm.feeds ⟨n, hn, ha⟩))
      · rw [r.wiring.pattern?_eq]
        exact hy
    · refine (k.inferred x hx).congr r.wiring (fun n hn m hm => setLayout_op hn hm) (hkeep x hx) ?_
      exact fun a hf => hkeep a (k.closed a x (k.relaid.wiring.symm.feeds hf) hx)

/-- A change that leaves the node as it is. -/
theorem adjust_same {f : Node → Node} (h : ∀ n, g.node? id = some n → f n = n) :
    g.adjust id f = g := by
  have : g.slots.modify id (Option.map f) = g.slots := by
    refine List.ext_getElem? fun x => ?_
    rw [List.getElem?_modify]
    by_cases hx : id = x
    · subst hx
      cases hslot : g.slots[id]? with
      | none => simp
      | some slot =>
        cases slot with
        | none => simp
        | some n => simp [h n (node?_eq_some.2 hslot)]
    · simp [hx]
  rw [adjust, this]

theorem setLayout_same {l : Layout} (hl : (g.node? id).bind (·.layout) = some l) :
    g.setLayout id l = g := by
  obtain ⟨n, hn, hnl⟩ := Option.bind_eq_some_iff.1 hl
  refine adjust_same fun m hm => ?_
  obtain rfl := Option.some.inj (hn.symm.trans hm)
  rw [← hnl]

/-- A node that can be inferred gets its layout, before the nodes after it get theirs. -/
theorem inferAlong_cons {t : InferenceTable} {l : Layout} (hl : t.inferNode g values id = .ok l) :
    t.inferAlong values (id :: ids) g =
      ((t.inferAlong values ids (g.setLayout id l)).1,
        (fun changed => decide ((g.node? id).bind (·.layout) ≠ some l) || changed) <$>
          (t.inferAlong values ids (g.setLayout id l)).2) := by
  simp only [InferenceTable.inferAlong, hl]
  split
  · next hsame =>
    rw [setLayout_same hsame]
    cases h : t.inferAlong values ids g with
    | mk g' r => cases r <;> simp [hsame, Functor.map, Except.map]
  · next hdiffers => simp [hdiffers]

/-- Where a run succeeds, it starts with a layout for the first node and goes on from there. -/
theorem inferAlong_cons_eq_ok {t : InferenceTable} {g' : Graph} {changed : Bool}
    (h : t.inferAlong values (id :: ids) g = (g', .ok changed)) :
    ∃ l changed', t.inferNode g values id = .ok l ∧
      t.inferAlong values ids (g.setLayout id l) = (g', .ok changed') := by
  cases hl : t.inferNode g values id with
  | error e =>
    simp only [InferenceTable.inferAlong, hl] at h
    cases (Prod.mk.inj h).2
  | ok l =>
    rw [inferAlong_cons hl, Prod.mk.injEq, Result.map_eq_ok] at h
    obtain ⟨hg, changed', hc, -⟩ := h
    exact ⟨l, changed', rfl, Prod.ext hg hc⟩

theorem inferring_inferAlong (hs : h.Sound) {g' : Graph} {changed : Bool}
    (ho : h.Ordered done ids) (k : Inferring h g values done)
    (hi : InferenceTable.standard.inferAlong values ids g = (g', .ok changed)) :
    Inferring h g' values (ids.reverse ++ done) := by
  induction ids generalizing g done changed with
  | nil =>
    obtain ⟨rfl, -⟩ := Prod.mk.inj hi
    exact k
  | cons id ids ih =>
    obtain ⟨hnew, -, hready, hrest⟩ := ho
    obtain ⟨l, changed', hl, hi⟩ := inferAlong_cons_eq_ok hi
    rw [List.reverse_cons, List.append_assoc, List.singleton_append]
    exact ih hrest (k.step hs hnew hready hl) hi

/-- A graph that was inferred is inferred at every node. -/
theorem Sound.inferGraph (hs : g.Sound) {g' : Graph} {changed : Bool}
    (hi : InferenceTable.standard.inferGraph values g = (g', .ok changed)) :
    g.Relaid g' ∧ g'.Inferred values := by
  have k := inferring_inferAlong hs hs.ordered ⟨.refl g, by simp, by simp⟩ hi
  refine ⟨k.relaid, fun x hx => k.inferred x ?_⟩
  rw [← k.relaid.wiring.contains_eq] at hx
  simpa using hs.mem_order.2 hx

end BufferFusion.Graph
