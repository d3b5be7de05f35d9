import BufferFusion.Proofs.Kernel.Split

/-!
# What a split leaves

A split checks its input, the axis and the sizes before it adds anything. It then adds its windows
one by one, and all that can go wrong there is that a window's name is taken. Those added before
stay, so a split is all or nothing unless the first name taken is that of a later window.
-/
namespace BufferFusion.Graph

open Window

variable {g g' : Graph} {name : String} {input id : NodeId} {axis i start : Nat}
  {shape sizes : List Nat} {ids : List NodeId} {ws : List Window}

/-- The name of window `i` of a split. -/
def windowName (split : String) (i : Nat) : String := split ++ ":" ++ toString i

theorem windowName_inj {j : Nat} (h : windowName name i = windowName name j) : i = j := by
  have hd : Nat.toDigits 10 i = Nat.toDigits 10 j :=
    String.ofList_injective ((String.append_right_inj _).1 h)
  rw [← @Nat.ofDigitChars_toDigits 10 i (by decide) (by decide), hd,
    Nat.ofDigitChars_toDigits (by decide) (by decide)]

/-- A node of that name is there. -/
def Taken (g : Graph) (name : String) : Prop := ∃ id n, g.node? id = some n ∧ n.name = name

theorem Listed.lookup_eq_none (k : g.Listed) (hs : g.Sound) :
    g.names.lookup name = none ↔ ¬ g.Taken name := by
  rw [Option.eq_none_iff_forall_ne_some]
  simp only [ne_eq, k.lookup_iff hs, Taken, not_exists]

/-- `g'` is `g` with a crop of the input for each window, the first one with number `i`. -/
structure Cropped (g : Graph) (split : String) (input : NodeId) (i : Nat) (ws : List Window)
    (ids : List NodeId) (g' : Graph) : Prop where
  length_eq : ids.length = ws.length
  ids_nodup : ids.Nodup
  unused : ∀ id ∈ ids, g.node? id = none
  crop : ∀ {k id w}, ids[k]? = some id → ws[k]? = some w → g'.node? id =
    some (.fresh id (windowName split (i + k)) (.crop w.offsets w.sizes) [input])
  old : ∀ {x}, x ∉ ids → g'.node? x = g.node? x
  edges : g'.edges = (ids.map (⟨input, ·, 0⟩)).reverse ++ g.edges
  names : g'.names = (ids.mapIdx fun k id => (windowName split (i + k), id)).reverse ++ g.names
  marked : g'.marked = g.marked
  sharing : g'.sharing = g.sharing
  same : ws = [] → g' = g

namespace Cropped

theorem nil : g.Cropped name input i [] [] g where
  length_eq := rfl
  ids_nodup := List.nodup_nil
  unused := by simp
  crop h := by cases h
  old _ := rfl
  edges := rfl
  names := rfl
  marked := rfl
  sharing := rfl
  same _ := rfl

/-- One window is added, then the others. -/
theorem cons (hs : g.Sound) {w : Window}
    (h : (g.place (windowName name i) (.crop w.offsets w.sizes) [input]).Cropped name input (i + 1)
      ws ids g') : g.Cropped name input i (w :: ws) (g.nextId :: ids) g' := by
  have hnode := node?_place hs (windowName name i) (.crop w.offsets w.sizes) [input]
  have hnew : g.nextId ∉ ids := by
    intro hm
    have := h.unused _ hm
    rw [hnode, if_pos rfl] at this
    cases this
  constructor
  · rw [List.length_cons, List.length_cons, h.length_eq]
  · exact List.nodup_cons.2 ⟨hnew, h.ids_nodup⟩
  · refine List.forall_mem_cons.2 ⟨node?_nextId hs, fun id hid => ?_⟩
    have := h.unused id hid
    rwa [hnode, if_neg (by rintro rfl; exact hnew hid)] at this
  · intro k id v hid hv
    cases k with
    | zero =>
      obtain rfl := Option.some.inj hid
      obtain rfl := Option.some.inj hv
      rw [h.old hnew, hnode, if_pos rfl, Nat.add_zero]
    | succ k => rw [h.crop hid hv, Nat.add_assoc, Nat.add_comm 1]
  · intro x hx
    obtain ⟨hne, hx⟩ := not_or.1 fun h => hx (List.mem_cons.2 h)
    rw [h.old hx, hnode, if_neg hne]
  · rw [h.edges, List.map_cons, List.reverse_cons, List.append_assoc]
    rfl
  · rw [h.names, List.mapIdx_cons, List.reverse_cons, List.append_assoc]
    simp only [Nat.add_assoc, Nat.add_comm 1]
    rfl
  · exact h.marked
  · exact h.sharing
  · nofun

/-- With a window, the graph is not what it was. -/
theorem eq_iff (h : g.Cropped name input i ws ids g') : g' = g ↔ ws = [] := by
  refine ⟨?_, h.same⟩
  rintro rfl
  by_contra hne
  obtain ⟨w, hw⟩ := List.exists_mem_of_ne_nil ws hne
  obtain ⟨k, hk, rfl⟩ := List.mem_iff_getElem.1 hw
  have hid := List.getElem?_eq_getElem (h.length_eq.symm ▸ hk)
  have hcrop := h.crop hid (List.getElem?_eq_getElem hk)
  rw [h.unused _ (List.mem_of_getElem? hid)] at hcrop
  cases hcrop

end Cropped

/-! ### Adding the windows -/

theorem add_taken {op : Operation} {inputs : List NodeId} (h : g.names.lookup name = some id) :
    g.add name op inputs = .error (.duplicateName name) := by
  simp only [add, checkNode, h, Option.isSome_some, if_true]
  rfl

theorem add_crop (hi : g.contains input = true) (hname : g.names.lookup name = none)
    (offsets extents : List Nat) : g.add name (.crop offsets extents) [input] =
      .ok (g.place name (.crop offsets extents) [input], g.nextId) := by
  have hcheck : g.checkNode name (.crop offsets extents) [input] = .ok () := by
    simp [checkNode, hname, Operation.takes, hi, checkSource]
  rw [add, hcheck]
  rfl

theorem addWindows_taken {size : Nat} (h : g.names.lookup (windowName name i) = some id) :
    g.addWindows name input shape axis i start (size :: sizes) =
      (g, .error (.duplicateName (windowName name i))) := by
  simp only [addWindows]
  rw [show name ++ ":" ++ toString i = windowName name i from rfl, add_taken h]

theorem addWindows_free {size : Nat} (hi : g.contains input = true)
    (h : g.names.lookup (windowName name i) = none) :
    g.addWindows name input shape axis i start (size :: sizes) =
      Prod.map (fun g' => g') ((g.nextId :: ·) <$> ·)
        ((g.place (windowName name i) (.crop (slice shape axis start size).offsets
          (slice shape axis start size).sizes) [input]).addWindows name input shape axis (i + 1)
            (start + size) sizes) := by
  simp only [addWindows]
  rw [show name ++ ":" ++ toString i = windowName name i from rfl, add_crop hi h]
  rfl

/-- Windows are added up to the first one whose name is taken. -/
theorem addWindows_outcome (hs : g.Sound) (hi : g.contains input = true) : ∃ k g' ids,
    g.Cropped name input i ((slices shape axis start sizes).take k) ids g' ∧
      (∀ j < k, g.names.lookup (windowName name (i + j)) = none) ∧
      (k = sizes.length ∧ g.addWindows name input shape axis i start sizes = (g', .ok ids) ∨
        k < sizes.length ∧ (∃ id, g.names.lookup (windowName name (i + k)) = some id) ∧
          g.addWindows name input shape axis i start sizes =
            (g', .error (.duplicateName (windowName name (i + k))))) := by
  induction sizes generalizing g i start with
  | nil => exact ⟨0, g, [], .nil, by simp, .inl ⟨rfl, rfl⟩⟩
  | cons size sizes ih =>
    cases hlook : g.names.lookup (windowName name i) with
    | some id =>
      exact ⟨0, g, [], .nil, by simp, .inr ⟨Nat.succ_pos _, ⟨id, hlook⟩, addWindows_taken hlook⟩⟩
    | none =>
      rw [addWindows_free hi hlook]
      set w := slice shape axis start size
      -- a window's name is no other window's name, so what is taken later was taken before
      have hnames : ∀ j, (g.place (windowName name i) (.crop w.offsets w.sizes) [input]).names.lookup
          (windowName name (i + 1 + j)) = g.names.lookup (windowName name (i + (j + 1))) := by
        intro j
        have hne : (windowName name (i + 1 + j) == windowName name i) = false :=
          beq_eq_false_iff_ne.2 fun he => by have := windowName_inj he; omega
        simp only [place, List.lookup_cons, hne]
        rw [Nat.add_assoc, Nat.add_comm 1]
      obtain ⟨k, g', ids, hcropped, hfree, hend⟩ :=
        @ih _ (i + 1) (start + size) (hs.add (add_crop hi hlook w.offsets w.sizes))
          (contains_place hs hi)
      simp only [hnames] at hfree hend
      refine ⟨k + 1, g', g.nextId :: ids, .cons hs hcropped, ?_, ?_⟩
      · rintro (_ | j) hj
        · exact hlook
        · exact hfree j (Nat.lt_of_succ_lt_succ hj)
      · obtain ⟨hk, h⟩ | ⟨hk, htaken, h⟩ := hend
        · exact .inl ⟨congrArg (· + 1) hk, by rw [h]; rfl⟩
        · refine .inr ⟨Nat.succ_lt_succ hk, htaken, ?_⟩
          rw [h, Nat.add_assoc, Nat.add_comm 1]
          rfl

/-! ### Whole splits -/

/-- Why a split adds nothing. -/
inductive Refused (g : Graph) (split : String) (input : NodeId) (axis : Nat) (sizes : List Nat) :
    Error → Prop
  | unsized {e : Error} : g.splitSizes split input = .error e →
      g.Refused split input axis sizes e
  | tooLong {shape : List Nat} : g.splitSizes split input = .ok shape → axis < shape.length →
      Size.limit ≤ sizes.sum → g.Refused split input axis sizes (.fault .overflow)
  | uncovered {shape : List Nat} : g.splitSizes split input = .ok shape →
      (axis < shape.length → sizes.sum < Size.limit) → shape[axis]? ≠ some sizes.sum →
      g.Refused split input axis sizes (.splitUncovered split sizes axis shape)

/-- A tensor has no sizes to split if it is not there or not all of its dims are known. -/
theorem splitSizes_eq_error {e : Error} (h : g.splitSizes name input = .error e) :
    g.node? input = none ∧ e = .missingNode input ∨
      ∃ n, g.node? input = some n ∧ (n.layout.or n.op.declared?).bind (·.shape.sizes?) = none ∧
        e = .splitNeedsSizes name n.name := by
  obtain hget | ⟨n, hget, h⟩ := Result.bind_eq_error.1 h
  · simp only [get] at hget
    split at hget
    · cases hget
    · next hn => exact .inl ⟨hn, (Except.error.inj hget).symm⟩
  · split at h
    · cases h
    · next hsizes => exact .inr ⟨n, get_eq_ok.1 hget, hsizes, (Except.error.inj h).symm⟩

theorem isFault_of_splitSizes {e : Error} (h : g.splitSizes name input = .error e) :
    e.isFault = false := by
  obtain ⟨-, rfl⟩ | ⟨n, -, -, rfl⟩ := splitSizes_eq_error h <;> rfl

theorem contains_of_splitSizes (h : g.splitSizes name input = .ok shape) :
    g.contains input = true := by
  obtain ⟨n, hn, -⟩ := Result.bind_eq_ok.1 h
  exact contains_iff.2 ⟨n, get_eq_ok.1 hn⟩

theorem checkSplit_cases (hshape : g.splitSizes name input = .ok shape) :
    (checkSplit name shape axis sizes = .ok () ∧ shape[axis]? = some sizes.sum ∧
      sizes.sum < Size.limit) ∨
      ∃ e, checkSplit name shape axis sizes = .error e ∧ g.Refused name input axis sizes e := by
  cases hn : shape[axis]? with
  | none =>
    have haxis := List.getElem?_eq_none_iff.1 hn
    exact .inr ⟨_, by rw [checkSplit, hn], .uncovered hshape (by omega) (by simp [hn])⟩
  | some n =>
    have haxis := (List.getElem?_eq_some_iff.1 hn).1
    obtain hsum | hsum := Nat.lt_or_ge sizes.sum Size.limit
    · have hcheck : checkSplit name shape axis sizes =
          if sizes.sum ≠ n then .error (.splitUncovered name sizes axis shape) else .ok () := by
        rw [checkSplit, hn, Size.sum_eq_ok.2 ⟨rfl, hsum⟩]
        rfl
      by_cases he : sizes.sum = n
      · exact .inl ⟨by rw [hcheck, if_neg (not_not.2 he)], by rw [he], hsum⟩
      · refine .inr ⟨_, by rw [hcheck, if_pos he], .uncovered hshape (fun _ => hsum) ?_⟩
        rw [hn]
        exact fun h => he (Option.some.inj h).symm
    · refine .inr ⟨_, ?_, .tooLong hshape haxis hsum⟩
      rw [checkSplit, hn, Size.sum_eq_error hsum]
      rfl

/-- A split that refuses its arguments changes nothing. Any other adds its windows in their order,
up to the first one whose name is taken. -/
theorem split_outcome (hs : g.Sound) (hl : g.Listed) (name : String) (input : NodeId) (axis : Nat)
    (sizes : List Nat) :
    (∃ e, g.Refused name input axis sizes e ∧ g.split name input axis sizes = (g, .error e)) ∨
      ∃ shape k g' ids, g.splitSizes name input = .ok shape ∧ shape[axis]? = some sizes.sum ∧
        sizes.sum < Size.limit ∧
        g.Cropped name input 0 ((slices shape axis 0 sizes).take k) ids g' ∧
        (∀ j < k, ¬ g.Taken (windowName name j)) ∧
        (k = sizes.length ∧ g.split name input axis sizes = (g', .ok ids) ∨
          k < sizes.length ∧ g.Taken (windowName name k) ∧
            g.split name input axis sizes = (g', .error (.duplicateName (windowName name k)))) := by
  cases hshape : g.splitSizes name input with
  | error e => exact .inl ⟨e, .unsized hshape, by simp only [Graph.split, hshape, bind, Except.bind]⟩
  | ok shape =>
    obtain ⟨hcheck, hsum, hfits⟩ | ⟨e, he, href⟩ :=
      @checkSplit_cases g name input axis shape sizes hshape
    · have hsplit : g.split name input axis sizes =
          g.addWindows name input shape axis 0 0 sizes := by
        simp only [Graph.split, hshape, bind, Except.bind, hcheck]
        rfl
      obtain ⟨k, g', ids, hcropped, hfree, hend⟩ :=
        @addWindows_outcome g name input axis 0 0 shape sizes hs (contains_of_splitSizes hshape)
      simp only [Nat.zero_add, ← hsplit, hl.lookup_eq_none hs, hl.lookup_iff hs] at hfree hend
      exact .inr ⟨shape, k, g', ids, rfl, hsum, hfits, hcropped, hfree, hend⟩
    · exact .inl ⟨e, href, by simp only [Graph.split, hshape, bind, Except.bind, he]⟩

/-- The split adds one crop for each size and nothing else, or it answers an error and changes
nothing. -/
def AllOrNothing (g : Graph) (split : String) (input : NodeId) (axis : Nat) (sizes : List Nat) :
    Prop :=
  (∃ shape g' ids, g.splitSizes split input = .ok shape ∧ shape[axis]? = some sizes.sum ∧
    g.Cropped split input 0 (slices shape axis 0 sizes) ids g' ∧
      g.split split input axis sizes = (g', .ok ids)) ∨
    ∃ e, e.isFault = false ∧ g.split split input axis sizes = (g, .error e)

/-- Window `k` is the first one whose name is taken. -/
structure Blocked (g : Graph) (split : String) (k : Nat) : Prop where
  taken : g.Taken (windowName split k)
  free : ∀ j < k, ¬ g.Taken (windowName split j)

theorem Blocked.unique {j k : Nat} (hj : g.Blocked name j) (hk : g.Blocked name k) : j = k :=
  Nat.le_antisymm (Nat.le_of_not_lt fun h => hj.free k h hk.taken)
    (Nat.le_of_not_lt fun h => hk.free j h hj.taken)

/-- A refusal is an answer, unless the sizes add up to too much. -/
theorem Refused.isFault_iff {e : Error} (h : g.Refused name input axis sizes e) :
    e.isFault = false ↔ ∀ shape, g.splitSizes name input = .ok shape → axis < shape.length →
      sizes.sum < Size.limit := by
  cases h with
  | unsized herr => simp [isFault_of_splitSizes herr, herr]
  | tooLong hshape haxis hsum =>
    refine ⟨nofun, fun h => ?_⟩
    exact absurd (h _ hshape haxis) (Nat.not_lt.2 hsum)
  | uncovered hshape hfits _ =>
    refine ⟨fun _ shape hshape' => ?_, fun _ => rfl⟩
    obtain rfl := Except.ok.inj (hshape.symm.trans hshape')
    exact hfits

/-- What is refused does not fill the axis, or adds up to too much. -/
theorem Refused.not_fits {e : Error} (h : g.Refused name input axis sizes e)
    (hshape : g.splitSizes name input = .ok shape) (hsum : shape[axis]? = some sizes.sum) :
    Size.limit ≤ sizes.sum := by
  cases h with
  | unsized herr => cases herr.symm.trans hshape
  | tooLong _ _ hlong => exact hlong
  | uncovered hshape' _ hne =>
    obtain rfl := Except.ok.inj (hshape.symm.trans hshape')
    exact absurd hsum hne

/-- A split is all or nothing, unless its sizes add up to more than a word or the first name that
is taken is that of a window after the first. There the windows before it stay. -/
theorem Reachable.allOrNothing_iff (hg : g.Reachable) (name : String) (input : NodeId) (axis : Nat)
    (sizes : List Nat) :
    (g.AllOrNothing name input axis sizes ↔ ∀ shape, g.splitSizes name input = .ok shape →
      (axis < shape.length → sizes.sum < Size.limit) ∧ (shape[axis]? = some sizes.sum →
        ∀ k < sizes.length, g.Blocked name k → k = 0)) ∧
      ∀ shape k, g.splitSizes name input = .ok shape → shape[axis]? = some sizes.sum →
        sizes.sum < Size.limit → k < sizes.length → g.Blocked name k → ∃ g' ids,
          g.Cropped name input 0 ((slices shape axis 0 sizes).take k) ids g' ∧
            g.split name input axis sizes = (g', .error (.duplicateName (windowName name k))) := by
  obtain ⟨e, href, hsplit⟩ | ⟨shape, k, g', ids, hshape, hsum, hfits, hcropped, hfree, hend⟩ :=
    split_outcome hg.sound hg.listed name input axis sizes
  · have hiff : g.AllOrNothing name input axis sizes ↔ e.isFault = false := by
      simp only [AllOrNothing, hsplit, Prod.mk.injEq, Except.error.injEq, true_and,
        reduceCtorEq, and_false, exists_false, false_or]
      exact ⟨fun ⟨_, hf, he⟩ => he ▸ hf, fun hf => ⟨e, hf, rfl⟩⟩
    constructor
    · rw [hiff, href.isFault_iff]
      refine ⟨fun h shape hshape => ⟨h shape hshape, fun hsum => ?_⟩, fun h shape hshape =>
        (h shape hshape).1⟩
      have hlong := href.not_fits hshape hsum
      have := h shape hshape (List.getElem?_eq_some_iff.1 hsum).1
      omega
    · intro shape k hshape hsum hfits
      exact absurd hfits (Nat.not_lt.2 (href.not_fits hshape hsum))
  · have hshape_eq : ∀ shape', g.splitSizes name input = .ok shape' → shape' = shape :=
      fun shape' h => Except.ok.inj (h.symm.trans hshape)
    obtain ⟨rfl, hsplit⟩ | ⟨hk, htaken, hsplit⟩ := hend
    · have hnot : ∀ j < sizes.length, ¬ g.Blocked name j := fun j hj hb => hfree j hj hb.taken
      constructor
      · refine iff_of_true (.inl ⟨shape, g', ids, hshape, hsum, ?_, hsplit⟩) fun shape' hshape' =>
          ⟨fun _ => hfits, fun _ j hj hb => absurd hb (hnot j hj)⟩
        rwa [List.take_of_length_le (by rw [length_slices])] at hcropped
      · exact fun shape' j _ _ _ hj hb => absurd hb (hnot j hj)
    · have hblocked : g.Blocked name k := ⟨htaken, hfree⟩
      constructor
      · have hiff : g.AllOrNothing name input axis sizes ↔ k = 0 := by
          have hnil : (slices shape axis 0 sizes).take k = [] ↔ k = 0 := by
            rw [List.take_eq_nil_iff, ← List.length_eq_zero_iff, length_slices]
            omega
          rw [← hnil, ← hcropped.eq_iff]
          simp only [AllOrNothing, hsplit, Prod.mk.injEq, reduceCtorEq, and_false, exists_false,
            false_or, Except.error.injEq]
          exact ⟨fun ⟨_, _, h, _⟩ => h, fun h => ⟨_, rfl, h, rfl⟩⟩
        rw [hiff]
        constructor
        · rintro rfl shape' -
          exact ⟨fun _ => hfits, fun _ j _ hb => hb.unique hblocked⟩
        · exact fun h => (h shape hshape).2 hsum k hk hblocked
      · intro shape' j hshape' _ _ _ hb
        obtain rfl := hshape_eq shape' hshape'
        obtain rfl := hb.unique hblocked
        exact ⟨g', ids, hcropped, hsplit⟩

/-- `rowsSample` with a node that has the name of the second window of a split named `s`. -/
def takenSample : Graph := rowsSample.place "s:1" (.input (.plain (.ofSizes [1]) .f32)) []

theorem reachable_takenSample : takenSample.Reachable :=
  ((Built.empty.place rfl).place rfl).reachable

/-- The split fails at its second window, and the first one stays. -/
theorem not_allOrNothing_takenSample : takenSample.Reachable ∧
    takenSample.splitSizes "s" 0 = .ok [2, 3] ∧
    (takenSample.split "s" 0 1 [2, 1]).2 = .error (.duplicateName "s:1") ∧
    (takenSample.split "s" 0 1 [2, 1]).1.Crops 0 2 ⟨[0, 0], [2, 2]⟩ ∧
    ¬ takenSample.AllOrNothing "s" 0 1 [2, 1] := by
  refine ⟨reachable_takenSample, rfl, rfl, ⟨_, rfl, rfl, rfl⟩, ?_⟩
  rintro (⟨_, _, _, -, -, -, h⟩ | ⟨_, -, h⟩)
  · cases congrArg Prod.snd h
  · have hsize : (takenSample.split "s" 0 1 [2, 1]).1.size = takenSample.size :=
      congrArg (Graph.size ·.1) h
    exact absurd hsize (by decide)

/-- The names of a split named `t` are free there, and so it adds both of its windows. -/
theorem allOrNothing_takenSample : takenSample.AllOrNothing "t" 0 1 [2, 1] ∧
    ∃ g' ids, takenSample.Cropped "s" 0 0 [slice [2, 3] 1 0 2] ids g' ∧
      takenSample.split "s" 0 1 [2, 1] = (g', .error (.duplicateName "s:1")) := by
  have hnone : ∀ {name}, takenSample.names.lookup name = none ↔ ¬ takenSample.Taken name :=
    reachable_takenSample.listed.lookup_eq_none reachable_takenSample.sound
  have hfree : ∀ k < 2, takenSample.names.lookup (windowName "t" k) = none := by decide
  have hblocked : takenSample.Blocked "s" 1 :=
    ⟨⟨1, _, rfl, rfl⟩, fun j hj => hnone.1 (by obtain rfl := Nat.lt_one_iff.1 hj; rfl)⟩
  constructor
  · refine (reachable_takenSample.allOrNothing_iff "t" 0 1 [2, 1]).1.2 fun shape hshape => ?_
    obtain rfl := Except.ok.inj hshape
    exact ⟨by decide, fun _ k hk hb => absurd hb.taken (hnone.1 (hfree k hk))⟩
  · exact (reachable_takenSample.allOrNothing_iff "s" 0 1 [2, 1]).2 [2, 3] 1 rfl rfl (by decide)
      (by decide) hblocked

end BufferFusion.Graph
