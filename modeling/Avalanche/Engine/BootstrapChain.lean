import Avalanche.Engine.BootstrapQuorum
import Avalanche.Library.CountWhere

/-!
# One connected chain

Blocks are stored by height only, and a walk down the parents stops as soon as it meets a height
that is known. If the tips lie on one chain, this is sound: whatever is held at a height is the
block of that chain, and below each block that is held comes another one, the last accepted block,
or a block that is requested (`Fetched`). Once nothing is requested any more, the heights that are
held are exactly those between the last accepted block and the highest tip, and executing them in
order accepts a connected chain (`accepted_isChain`).

A request must not get lost for this. The bootstrapper forgets the request that a reply answers
before it parses the reply, and a container that does not parse ends the handler. Then the block is
not requested again, and the bootstrapper may finish without it (`tip_not_accepted`).

A run has three stages: some beacon has not responded, the ancestry of the tips is fetched, and the
blocks have been executed. Every handler keeps to them (`Stage.step`).
-/

set_option mvcgen.warning false

namespace Avalanche.Bootstrap

open Std Std.Do

variable {W : Type} {cfg : Config W}

/-- A chain that the virtual machine can parse, from the last accepted block at height `base` up to
height `top`. Nothing else parses to a block with an id of the chain. -/
structure Lineage (cfg : Config W) where
  base : ℕ
  top : ℕ
  base_le_top : base ≤ top
  block : ℕ → Block
  parse : List UInt8 → Except String Block
  parseBlock_eq : ∀ bytes w, (cfg.vm.parseBlock bytes w).1 = parse bytes
  height_block : ∀ {h}, h ≤ top → (block h).height = h
  parent_block : ∀ {h}, h < top → (block (h + 1)).parent = (block h).id
  parse_block : ∀ {h}, h ≤ top → parse (block h).bytes = .ok (block h)
  eq_block : ∀ {bytes b h}, parse bytes = .ok b → h ≤ top → b.id = (block h).id → b = block h

namespace Lineage

variable (L : Lineage cfg)

/-- The id of a block of the chain. -/
def OnChain (id : Id) : Prop := ∃ h ≤ L.top, id = (L.block h).id

instance (id : Id) : Decidable (L.OnChain id) :=
  decidable_of_iff ((List.range (L.top + 1)).any fun h ↦ id = (L.block h).id) (by simp [OnChain])

/-- The block at height `h` of the chain is a tip or an ancestor of one. -/
def Under (tips : ExtTreeSet Id) (h : ℕ) : Prop :=
  ∃ h', h ≤ h' ∧ h' ≤ L.top ∧ (L.block h').id ∈ tips

variable {L} {tips : ExtTreeSet Id}

theorem Under.le_top {h : ℕ} : L.Under tips h → h ≤ L.top
  | ⟨_, hle, htop, _⟩ => hle.trans htop

theorem Under.mono {h h' : ℕ} (hle : h ≤ h') : L.Under tips h' → L.Under tips h
  | ⟨t, ht, htop, hmem⟩ => ⟨t, hle.trans ht, htop, hmem⟩

theorem block_inj {h h' : ℕ} (hh : h ≤ L.top) (hh' : h' ≤ L.top)
    (hid : (L.block h).id = (L.block h').id) : h = h' := by
  rw [← L.height_block hh, L.eq_block (L.parse_block hh) hh' hid, L.height_block hh']

end Lineage

/-- A sorted list of numbers from `a` on that has no gap. -/
theorem eq_range'_of_sorted {l : List ℕ} {a : ℕ} (hs : l.Pairwise (· < ·)) (hlow : ∀ x ∈ l, a ≤ x)
    (hgap : ∀ x, a ≤ x → x + 1 ∈ l → x ∈ l) : l = List.range' a l.length := by
  induction l generalizing a with
  | nil => rfl
  | cons y l ih =>
    obtain ⟨hy, hs⟩ := List.pairwise_cons.mp hs
    have hya : y = a := by
      by_contra hne
      have hay := hlow y List.mem_cons_self
      have hmem : y - 1 + 1 ∈ y :: l := by
        rw [Nat.sub_add_cancel (by omega)]
        exact List.mem_cons_self
      have hpred := hgap (y - 1) (by omega) hmem
      obtain heq | hmem := List.mem_cons.mp hpred
      · omega
      · have := hy _ hmem
        omega
    subst hya
    congr 1
    refine ih hs (fun x hx ↦ hy x hx) fun x hx hmem ↦ ?_
    obtain heq | hmem := List.mem_cons.mp (hgap x (by omega) (List.mem_cons_of_mem y hmem))
    · omega
    · exact hmem

/-! ## Fetched blocks -/

theorem mem_of_byId {chain : List Block} {id : Id} {b : Block} (h : (byId chain)[id]? = some b) :
    b ∈ chain ∧ b.id = id :=
  (TreeMap.getElem?_foldl_insert_cases h).resolve_right (by simp)

/-- What has been fetched while the ids of `pending` are still to come: each height holds the block
of the chain, and a tip or what comes below a height that is held is held as well, at or below the
last accepted block, or pending. -/
structure Fetched (L : Lineage cfg) (tips : ExtTreeSet Id) (tree : Tree) (blocks : Blocks)
    (pending : Id → Prop) : Prop where
  wellFormed : tree.WellFormed
  mem_iff : ∀ h, tree.Mem h ↔ h ∈ blocks
  stored : ∀ h bytes, blocks[h]? = some bytes →
    L.base < h ∧ L.Under tips h ∧ bytes = (L.block h).bytes
  wanted : ∀ id, pending id → ∃ h, L.Under tips h ∧ id = (L.block h).id
  closed : ∀ h ≤ L.top, (h + 1 ∈ blocks ∨ (L.block h).id ∈ tips) →
    h ≤ L.base ∨ h ∈ blocks ∨ pending (L.block h).id

namespace Fetched

variable {L : Lineage cfg} {tips : ExtTreeSet Id} {tree : Tree} {blocks : Blocks}
  {pending pending' : Id → Prop} {h : ℕ}

theorem under (hf : Fetched L tips tree blocks pending) (hh : h ∈ blocks) :
    L.base < h ∧ L.Under tips h :=
  have ⟨hb, hu, _⟩ := hf.stored h blocks[h] (ExtTreeMap.getElem?_eq_some_getElem hh)
  ⟨hb, hu⟩

/-- Nothing changes if the pending ids are the same, but for some that are at or below the last
accepted height or held. -/
theorem congr (hf : Fetched L tips tree blocks pending)
    (hwanted : ∀ id, pending' id → ∃ h, L.Under tips h ∧ id = (L.block h).id)
    (hmem : ∀ h ≤ L.top, pending (L.block h).id →
      h ≤ L.base ∨ h ∈ blocks ∨ pending' (L.block h).id) :
    Fetched L tips tree blocks pending' where
  wellFormed := hf.wellFormed
  mem_iff := hf.mem_iff
  stored := hf.stored
  wanted := hwanted
  closed h hh hreq := by
    obtain hle | hm | hp := hf.closed h hh hreq
    · exact Or.inl hle
    · exact Or.inr (Or.inl hm)
    · exact hmem h hh hp

/-- At first the tips are pending and nothing is held. -/
theorem start (htips : ∀ id ∈ tips.toList, L.OnChain id) (hpending : ∀ i, pending i ↔ i ∈ tips) :
    Fetched L tips Tree.new ∅ pending where
  wellFormed := Tree.wellFormed_new
  mem_iff h := by simp [Tree.not_mem_new]
  stored h bytes hh := by simp at hh
  wanted i hi := by
    have hi := (hpending i).mp hi
    obtain ⟨h, hh, rfl⟩ := htips i (ExtTreeSet.mem_toList.mpr hi)
    exact ⟨h, ⟨h, Nat.le_refl h, hh, hi⟩, rfl⟩
  closed h _ hreq := Or.inr (Or.inr ((hpending _).mpr (hreq.resolve_left (by simp))))

/-- The id of a block that is held, or not above the last accepted one, need not be pending. -/
theorem drop {id : Id} (hf : Fetched L tips tree blocks fun i ↦ pending i ∨ i = id)
    (hid : ∀ h ≤ L.top, id = (L.block h).id → h ≤ L.base ∨ h ∈ blocks) :
    Fetched L tips tree blocks pending :=
  hf.congr (fun i hi ↦ hf.wanted i (Or.inl hi)) fun h hh hp ↦
    hp.elim (fun hp ↦ Or.inr (Or.inr hp)) fun heq ↦ (hid h hh heq.symm).imp_right Or.inl

/-- Adding the block at a height makes its parent pending. -/
theorem insert
    (hf : Fetched L tips tree blocks fun i ↦ pending i ∨ i = (L.block (h + 1)).id)
    (htop : h + 1 ≤ L.top) (hbase : L.base < h + 1) :
    Fetched L tips (tree.add (h + 1)) (blocks.insert (h + 1) (L.block (h + 1)).bytes)
      fun i ↦ pending i ∨ i = (L.block h).id := by
  obtain ⟨hwf, hmem⟩ := hf.wellFormed.add (h + 1)
  obtain ⟨h', hu, hid⟩ := hf.wanted (L.block (h + 1)).id (Or.inr rfl)
  obtain rfl := L.block_inj htop hu.le_top hid
  have hblocks : ∀ g, g ∈ blocks.insert (h + 1) (L.block (h + 1)).bytes ↔ g = h + 1 ∨ g ∈ blocks :=
    fun g ↦ by rw [ExtTreeMap.mem_insert, LawfulEqCmp.compare_eq_iff_eq, eq_comm]
  refine ⟨hwf, fun g ↦ ?_, fun g bytes hg ↦ ?_, fun i hi ↦ ?_, fun g hg hreq ↦ ?_⟩
  · rw [hmem, hf.mem_iff, hblocks]
  · rw [TreeMap.getElem?_insert_eq] at hg
    split_ifs at hg with heq
    · subst heq
      exact ⟨hbase, hu, (Option.some.inj hg).symm⟩
    · exact hf.stored g bytes hg
  · obtain hp | rfl := hi
    · exact hf.wanted i (Or.inl hp)
    · exact ⟨h, hu.mono (Nat.le_succ h), rfl⟩
  · rw [hblocks, or_assoc] at hreq
    rw [hblocks]
    obtain heq | hreq := hreq
    · exact Or.inr (Or.inr (Or.inr (by rw [Nat.succ.inj heq])))
    · obtain hle | hm | hp | hid := hf.closed g hg hreq
      · exact Or.inl hle
      · exact Or.inr (Or.inl (Or.inr hm))
      · exact Or.inr (Or.inr (Or.inl hp))
      · exact Or.inr (Or.inl (Or.inl (L.block_inj hg htop hid)))

/-- Adding a block that is pending leaves at most its parent to come. -/
theorem addBlock (hf : Fetched L tips tree blocks fun i ↦ pending i ∨ i = (L.block h).id)
    (htop : h ≤ L.top) :
    ∃ wantsParent tree' blocks',
      addBlock tree blocks L.base h (L.block h).bytes = (wantsParent, tree', blocks') ∧
      if wantsParent then
        ∃ g, h = g + 1 ∧ Fetched L tips tree' blocks' fun i ↦ pending i ∨ i = (L.block g).id
      else Fetched L tips tree' blocks' pending := by
  rw [Bootstrap.addBlock]
  split_ifs with hskip
  · refine ⟨_, _, _, rfl, ?_⟩
    rw [Bool.or_eq_true, decide_eq_true_eq, Tree.contains_iff hf.wellFormed, hf.mem_iff] at hskip
    refine hf.drop fun g hg hid ↦ ?_
    rwa [← L.block_inj htop hg hid]
  · rw [Bool.or_eq_true, decide_eq_true_eq, not_or, Nat.not_le] at hskip
    obtain ⟨g, rfl⟩ := Nat.exists_eq_add_of_lt hskip.1
    have hins := hf.insert htop hskip.1
    refine ⟨_, _, _, rfl, ?_⟩
    split_ifs with hwants
    · exact ⟨_, rfl, hins⟩
    · refine hins.drop fun g' hg' hid ↦ ?_
      obtain rfl := L.block_inj (by omega) hg' hid
      simpa [Tree.contains_iff hins.wellFormed, hins.mem_iff, or_iff_not_imp_left] using hwants

/-- **Walking a reply.** The walk ends within the given fuel, and leaves only the parent it reports
to come. The blocks it visits have different heights, so that it visits none twice. -/
theorem walkChain {chain : List Block} (hchain : ∀ b ∈ chain, ∃ bytes, L.parse bytes = .ok b)
    {fuel h : ℕ} (hf : Fetched L tips tree blocks fun i ↦ pending i ∨ i = (L.block h).id)
    (htop : h ≤ L.top) (hfirst : L.block h ∈ chain)
    (hfuel : countWhere chain (fun b ↦ b.height ≤ h) < fuel) :
    ∃ tree' blocks' missing,
      walkChain L.base chain fuel (L.block h) tree blocks = some (tree', blocks', missing) ∧
      Fetched L tips tree' blocks' fun i ↦ pending i ∨ i ∈ missing.toList := by
  induction fuel generalizing h tree blocks with
  | zero => exact absurd hfuel (Nat.not_lt_zero _)
  | succ fuel ih =>
    obtain ⟨wantsParent, tree', blocks', heq, hnext⟩ := hf.addBlock htop
    rw [Bootstrap.walkChain, L.height_block htop, heq]
    cases wantsParent with
    | false => exact ⟨tree', blocks', none, rfl, by simpa using hnext⟩
    | true =>
      obtain ⟨g, rfl, hnext⟩ := hnext
      have hparent : (L.block (g + 1)).parent = (L.block g).id := L.parent_block htop
      cases hby : (byId chain)[(L.block (g + 1)).parent]? with
      | none =>
        refine ⟨tree', blocks', _, rfl, ?_⟩
        simpa [hparent] using hnext
      | some parent =>
        obtain ⟨hmem, hid⟩ := mem_of_byId hby
        obtain ⟨bytes, hparse⟩ := hchain parent hmem
        obtain rfl := L.eq_block hparse (Nat.le_of_succ_le htop) (hid.trans hparent)
        refine ih hnext (Nat.le_of_succ_le htop) hmem ?_
        have hsplit : countWhere chain (fun b ↦ b.height ≤ g + 1) =
            countWhere chain (fun b ↦ b.height ≤ g) +
              countWhere chain (fun b ↦ b.height = g + 1) := by
          rw [← countWhere_or fun b _ hb ↦ by omega]
          exact countWhere_congr fun b _ ↦ by omega
        have hpos : 0 < countWhere chain fun b ↦ b.height = g + 1 :=
          countWhere_pos.mpr ⟨_, hfirst, L.height_block htop⟩
        omega

/-- Once nothing is pending, the heights held are those of the tips and their ancestors above the
last accepted block. -/
theorem mem_iff_under (hf : Fetched L tips tree blocks fun _ ↦ False) :
    h ∈ blocks ↔ L.base < h ∧ L.Under tips h := by
  refine ⟨hf.under, ?_⟩
  rintro ⟨hbase, t, hle, htop, htip⟩
  -- downwards from the tip
  induction hle using Nat.decreasingInduction with
  | self =>
    exact ((hf.closed _ htop (Or.inr htip)).resolve_left (by omega)).resolve_right id
  | of_succ g hg ih =>
    have hsucc := ih (by omega)
    exact ((hf.closed g (by omega) (Or.inl hsucc)).resolve_left (by omega)).resolve_right id

/-- The heights held are then an interval. -/
theorem keys_eq (hf : Fetched L tips tree blocks fun _ ↦ False) :
    blocks.keys = List.range' (L.base + 1) blocks.keys.length := by
  refine eq_range'_of_sorted ?_ (fun h hh ↦ ?_) fun h hle hh ↦ ?_
  · exact ExtTreeMap.ordered_keys.imp fun h ↦ Nat.compare_eq_lt.mp h
  · exact (hf.mem_iff_under.mp (ExtTreeMap.mem_keys.mp hh)).1
  · obtain ⟨-, hu⟩ := hf.mem_iff_under.mp (ExtTreeMap.mem_keys.mp hh)
    exact ExtTreeMap.mem_keys.mpr (hf.mem_iff_under.mpr ⟨hle, hu.mono (Nat.le_succ h)⟩)

end Fetched

namespace Bootstrapper

variable {b : Bootstrapper W} {L : Lineage cfg} {tips : ExtTreeSet Id}

/-! ## The stages of a run -/

/-- A request for the block is outstanding. -/
def Awaits (b : Bootstrapper W) (id : Id) : Prop :=
  ∃ k : NodeId ×ₗ UInt32, b.outstanding[k]? = some id

/-- The next request id is not in use. -/
def NextFree (b : Bootstrapper W) : Prop :=
  ∀ k ∈ b.outstanding.keys, (ofLex k).2 ≠ b.requestId + 1

instance (b : Bootstrapper W) : Decidable b.NextFree :=
  List.decidableBAll (fun k : NodeId ×ₗ UInt32 ↦ (ofLex k).2 ≠ b.requestId + 1) b.outstanding.keys

/-- All beacons have responded, and the ancestry of the tips is fetched; the ids in `extra` are
about to be requested. -/
structure Seeking (L : Lineage cfg) (extra : List Id) (b : Bootstrapper W) : Prop where
  complete : ∀ node ∈ cfg.beacons, node ∈ b.acceptedReplies
  nonempty : cfg.beacons.keys ≠ []
  lastAcceptedHeight : b.lastAcceptedHeight = L.base
  accepted : b.accepted = []
  finished : b.finished = false
  fetched : Fetched L b.acceptedTips b.tree b.blocks fun i ↦ b.Awaits i ∨ i ∈ extra

/-- An outstanding request has been added. -/
theorem awaits_insert (hfree : b.NextFree) (node : NodeId) {id : Id} (b' : Bootstrapper W)
    (hout : b'.outstanding = b.outstanding.insert (toLex (node, b.requestId + 1)) id) (i : Id) :
    b'.Awaits i ↔ b.Awaits i ∨ i = id := by
  simp only [Awaits, hout, TreeMap.getElem?_insert_eq]
  constructor
  · rintro ⟨k, hk⟩
    split_ifs at hk
    · exact Or.inr (Option.some.inj hk).symm
    · exact Or.inl ⟨k, hk⟩
  · rintro (⟨k, hk⟩ | rfl)
    · refine ⟨k, ?_⟩
      rw [if_neg, hk]
      rintro rfl
      have hmem := ExtTreeMap.mem_iff_isSome_getElem?.mpr (Option.isSome_of_eq_some hk)
      exact hfree _ (ExtTreeMap.mem_keys.mpr hmem) rfl
    · exact ⟨_, if_pos rfl⟩

/-- What is pending stays pending if the awaited ids take over those about to be requested. -/
theorem Seeking.fetched_of_awaits {extra extra' : List Id} {b b' : Bootstrapper W}
    (h : Seeking L extra b) (hawaits : ∀ i, b'.Awaits i ∨ i ∈ extra' ↔ b.Awaits i ∨ i ∈ extra) :
    Fetched L b.acceptedTips b.tree b.blocks fun i ↦ b'.Awaits i ∨ i ∈ extra' := by
  rw [funext fun i ↦ propext (hawaits i)]
  exact h.fetched

theorem fetch_seeking (L : Lineage cfg) (id : Id) (extra : List Id) :
    Handler.Spec (fun b ↦ Seeking L (id :: extra) b ∧ b.NextFree) (fetch cfg id)
      (fun _ ↦ Seeking L extra) fun _ ↦ False := by
  mvcgen [fetch, send]
  · -- the block is requested already
    rename_i b h hcontains
    have hid : b.Awaits id := TreeMap.mem_values.mp (List.contains_iff_mem.mp hcontains)
    refine { h.1 with fetched := h.1.fetched_of_awaits fun i ↦ ?_ }
    have hself : b.Awaits i ∨ i = id ↔ b.Awaits i := or_iff_left_of_imp fun heq ↦ heq ▸ hid
    rw [List.mem_cons, ← or_assoc, hself]
  · rename_i b h _ beacons hnone
    have hlt := Nat.mod_lt b.fetchCursor.toNat (List.length_pos_iff.mpr h.1.nonempty)
    exact absurd (List.getElem?_eq_none_iff.mp hnone) (Nat.not_le.mpr hlt)
  · rename_i b h hnot beacons node hnode req t t'
    refine { h.1 with fetched := h.1.fetched_of_awaits fun i ↦ ?_ }
    rw [awaits_insert h.2 node t'.2 rfl, List.mem_cons, or_assoc]

/-- The outstanding requests are among the last `n`. -/
def Recent (n : ℕ) (b : Bootstrapper W) : Prop :=
  ∀ k ∈ b.outstanding, ∃ i < n, b.requestId = (ofLex k).2 + UInt32.ofNat i

theorem Recent.nextFree {n : ℕ} (h : b.Recent n) (hn : n < 2 ^ 32) :
    b.NextFree := by
  intro k hk heq
  obtain ⟨i, hi, hreq⟩ := h k (ExtTreeMap.mem_keys.mp hk)
  have hwrap := congrArg UInt32.toNat heq
  simp [hreq] at hwrap
  omega

theorem fetch_recent (cfg : Config W) (id : Id) (n : ℕ) :
    Handler.Spec (Recent n) (fetch cfg id) (fun _ ↦ Recent (n + 1)) fun _ ↦ False := by
  have hmono {b : Bootstrapper W} (h : b.Recent n) : b.Recent (n + 1) := fun k hk ↦ by
    obtain ⟨i, hi, hreq⟩ := h k hk
    exact ⟨i, Nat.lt_succ_of_lt hi, hreq⟩
  mvcgen [fetch, send]
  · exact hmono (by assumption)
  · exact hmono (by assumption)
  · rename_i b h _ beacons node hnode req t t'
    intro k hk
    rw [ExtTreeMap.mem_insert, LawfulEqCmp.compare_eq_iff_eq] at hk
    obtain rfl | hk := hk
    · exact ⟨0, Nat.succ_pos n, (UInt32.add_zero _).symm⟩
    · obtain ⟨i, hi, hreq⟩ := h k hk
      refine ⟨i + 1, Nat.succ_lt_succ hi, ?_⟩
      change b.requestId + 1 = _
      rw [hreq, UInt32.ofNat_add, ← UInt32.add_assoc]
      rfl

theorem fetchAll_seeking (L : Lineage cfg) (tips : List Id) (n : ℕ)
    (hn : n + tips.length ≤ 2 ^ 32) :
    Handler.Spec (fun b ↦ Seeking L tips b ∧ b.Recent n) (fetchAll cfg tips)
      (fun _ ↦ Seeking L []) fun _ ↦ False := by
  induction tips generalizing n with
  | nil =>
    mvcgen [fetchAll]
    rename_i h
    exact h.1
  | cons tip tips ih =>
    rw [List.length_cons] at hn
    have hfetch := Handler.Spec.and (fetch_seeking L tip tips) (fetch_recent cfg tip n)
    have ih := ih (n + 1) (by omega)
    mvcgen [fetchAll, hfetch, ih]
    · rename_i b h
      exact ⟨⟨h.1, h.2.nextFree (by omega)⟩, h.2⟩
    · exact fun h _ ↦ h

/-- A reply that starts with the wanted block leaves nothing behind but what is requested. -/
theorem processChain_seeking (L : Lineage cfg) (chain : List Block) (first : Block) :
    Handler.Spec
      (fun b ↦ (Seeking L [first.id] b ∧ b.NextFree) ∧ first ∈ chain ∧
        ∀ b ∈ chain, ∃ bytes, L.parse bytes = .ok b)
      (processChain cfg chain first) (fun _ ↦ Seeking L []) fun _ ↦ False := by
  have hwalk {b : Bootstrapper W} (h : Seeking L [first.id] b) (hfirst : first ∈ chain)
      (hchain : ∀ b ∈ chain, ∃ bytes, L.parse bytes = .ok b) : ∃ tree' blocks' missing,
        walkChain b.lastAcceptedHeight chain (chain.length + 1) first b.tree b.blocks =
          some (tree', blocks', missing) ∧
        Fetched L b.acceptedTips tree' blocks' fun i ↦ b.Awaits i ∨ i ∈ missing.toList := by
    have hf : Fetched L b.acceptedTips b.tree b.blocks fun i ↦ b.Awaits i ∨ i = first.id := by
      simpa using h.fetched
    obtain ⟨g, hu, hid⟩ := hf.wanted first.id (Or.inr rfl)
    obtain ⟨bytes, hparse⟩ := hchain first hfirst
    obtain rfl := L.eq_block hparse hu.le_top hid
    rw [h.lastAcceptedHeight]
    exact hf.walkChain hchain hu.le_top hfirst (Nat.lt_succ_of_le (countWhere_le_length _ _))
  have hfetch (id : Id) := fetch_seeking L id []
  mvcgen [processChain, hfetch]
  · rename_i b h hnone
    obtain ⟨tree, blocks, missing, hsome, -⟩ := hwalk h.1.1 h.2.1 h.2.2
    exact Option.some_ne_none _ (hsome.symm.trans hnone)
  · rename_i b h tree' blocks' missing' hsome t hmissing
    obtain ⟨tree, blocks, missing, hsome', hf⟩ := hwalk h.1.1 h.2.1 h.2.2
    cases hsome.symm.trans hsome'
    subst hmissing
    exact { h.1.1 with fetched := hf }
  · rename_i b h tree' blocks' missing' hsome t parentId hmissing
    obtain ⟨tree, blocks, missing, hsome', hf⟩ := hwalk h.1.1 h.2.1 h.2.2
    cases hsome.symm.trans hsome'
    subst hmissing
    exact ⟨{ h.1.1 with fetched := hf }, h.1.2⟩

/-- Parsing changes nothing but the world, and gives what the chain's parser gives. -/
theorem parseBlock_spec (L : Lineage cfg) (bytes : List UInt8) {I : Bootstrapper W → Prop}
    (hI : ∀ b w, I b → I { b with world := w }) :
    Handler.Spec I (outside (cfg.vm.parseBlock bytes)) (fun blk b ↦ I b ∧ L.parse bytes = .ok blk)
      fun b ↦ I b ∧ ∃ msg, L.parse bytes = .error msg := by
  mvcgen [outside]
  · rename_i b h t blk hparse
    exact ⟨hI b _ h, by rw [← L.parseBlock_eq bytes b.world]; exact hparse⟩
  · rename_i b h t msg hparse
    exact ⟨hI b _ h, msg, by rw [← L.parseBlock_eq bytes b.world]; exact hparse⟩

theorem batchedParseBlock_seeking (L : Lineage cfg) (extra : List Id)
    {containers : List (List UInt8)} (hparse : ∀ c ∈ containers, ∃ blk, L.parse c = .ok blk) :
    Handler.Spec (fun b ↦ Seeking L extra b ∧ b.NextFree) (batchedParseBlock cfg containers)
      (fun chain b ↦ (Seeking L extra b ∧ b.NextFree) ∧ ∀ b ∈ chain, ∃ bytes, L.parse bytes = .ok b)
      fun _ ↦ False := by
  induction containers with
  | nil =>
    mvcgen [batchedParseBlock]
    rename_i b h
    exact ⟨h, fun b hb ↦ absurd hb List.not_mem_nil⟩
  | cons container containers ih =>
    have ih := ih fun c hc ↦ hparse c (List.mem_cons_of_mem _ hc)
    have hspec := parseBlock_spec L container (I := fun b ↦ Seeking L extra b ∧ b.NextFree)
      fun b w h ↦ ⟨{ h.1 with }, h.2⟩
    mvcgen [batchedParseBlock, hspec, ih]
    · rename_i h
      exact h.1
    · rename_i b h blk b' h' chain b'' h''
      refine ⟨h''.1, List.forall_mem_cons.mpr ⟨⟨container, h'.2⟩, h''.2⟩⟩
    · rintro - - ⟨msg, herr⟩
      obtain ⟨blk, hok⟩ := hparse container List.mem_cons_self
      cases hok.symm.trans herr

/-! ## Executing -/

/-- All beacons have responded and nothing is outstanding, and `accepted` is what was accepted. -/
structure Settled (cfg : Config W) (tips : ExtTreeSet Id) (accepted : List Block)
    (b : Bootstrapper W) : Prop where
  complete : ∀ node ∈ cfg.beacons, node ∈ b.acceptedReplies
  outstanding : b.outstanding = ∅
  acceptedTips : b.acceptedTips = tips
  accepted : b.accepted = accepted
  finished : b.finished = false

/-- A height that is held adds its block to the accepted ones, unless a step fails. -/
theorem executeHeight_settled (L : Lineage cfg) (tips : ExtTreeSet Id) (accepted : List Block)
    {h : ℕ} {hs : List ℕ} (hh : L.base < h) (htop : h ≤ L.top) (hnot : h ∉ hs) :
    Handler.Spec
      (fun b ↦ Settled cfg tips accepted b ∧
        ∀ g ∈ h :: hs, b.blocks[g]? = some (L.block g).bytes)
      (executeHeight cfg L.base h)
      (fun _ b ↦ Settled cfg tips (accepted ++ [L.block h]) b ∧
        ∀ g ∈ hs, b.blocks[g]? = some (L.block g).bytes)
      (Settled cfg tips accepted) := by
  mvcgen [executeHeight, checkHalt, outside]
  · rename_i b hb _
    exact hb.1
  · rename_i b hb _ hnone
    cases hnone.symm.trans (hb.2 h List.mem_cons_self)
  · omega
  · rename_i b hb _ bytes hbytes t₁ _ t₂ blk hblk t₃ _ _ t₄ _ _ t₅ _ _ t₆
    cases hbytes.symm.trans (hb.2 h List.mem_cons_self)
    have hparse : (cfg.vm.parseBlock (L.block h).bytes b.world).1 = .ok blk := hblk
    rw [L.parseBlock_eq, L.parse_block htop, Except.ok.injEq] at hparse
    subst hparse
    refine ⟨{ hb.1 with accepted := congrArg (· ++ [L.block h]) hb.1.accepted }, fun g hg ↦ ?_⟩
    have hne : h ≠ g := fun heq ↦ hnot (heq ▸ hg)
    refine (TreeMap.getElem?_erase_eq b.blocks h g).trans ?_
    rw [if_neg hne, hb.2 g (List.mem_cons_of_mem h hg)]
  all_goals
    have hb := And.left ‹Settled cfg tips accepted _ ∧ _›
    exact { hb with }

/-- Going through heights that are held accepts their blocks in order, or a first part of them. -/
theorem executeHeights_settled (L : Lineage cfg) (tips : ExtTreeSet Id) {hs : List ℕ}
    (hhs : ∀ h ∈ hs, L.base < h ∧ h ≤ L.top) (hnodup : hs.Nodup) (accepted : List Block) :
    Handler.Spec
      (fun b ↦ Settled cfg tips accepted b ∧ ∀ h ∈ hs, b.blocks[h]? = some (L.block h).bytes)
      (executeHeights cfg L.base hs)
      (fun _ ↦ Settled cfg tips (accepted ++ hs.map L.block))
      (fun b ↦ ∃ n, Settled cfg tips (accepted ++ (hs.take n).map L.block) b) := by
  induction hs generalizing accepted with
  | nil =>
    mvcgen [executeHeights]
    rename_i b hb
    rw [List.map_nil, List.append_nil]
    exact hb.1
  | cons h hs ih =>
    obtain ⟨hnot, hnodup⟩ := List.nodup_cons.mp hnodup
    obtain ⟨⟨hh, htop⟩, hhs⟩ := List.forall_mem_cons.mp hhs
    have hstep := executeHeight_settled L tips accepted hh htop hnot
    have ih := ih hhs hnodup (accepted ++ [L.block h])
    mvcgen [executeHeights, hstep, ih]
    · rw [List.append_assoc]
      exact id
    · rintro ⟨n, hb⟩
      rw [List.append_assoc] at hb
      exact ⟨n + 1, hb⟩
    · intro hb
      refine ⟨0, ?_⟩
      rwa [List.take_zero, List.map_nil, List.append_nil]

/-- All beacons have responded, and the blocks above the last accepted one were accepted, up to a
height that is not above the tips. -/
structure Executed (L : Lineage cfg) (b : Bootstrapper W) : Prop where
  complete : ∀ node ∈ cfg.beacons, node ∈ b.acceptedReplies
  outstanding : b.outstanding = ∅
  tips : cfg.beacons.keys = [] → b.acceptedTips = ∅
  accepted : b.accepted = (List.range' (L.base + 1) b.accepted.length).map L.block
  under : ∀ h, L.base < h → h ≤ L.base + b.accepted.length → L.Under b.acceptedTips h
  finished : b.finished = true → ∀ h, L.base < h → L.Under b.acceptedTips h →
    h ≤ L.base + b.accepted.length

/-- Blocks accepted from the bottom of what was fetched. -/
theorem Settled.executed {tree : Tree} {blocks : Blocks}
    {n : ℕ} (hf : Fetched L tips tree blocks fun _ ↦ False)
    (hne : cfg.beacons.keys ≠ [])
    (h : Settled cfg tips ((blocks.keys.take n).map L.block) b) : Executed L b := by
  obtain ⟨k, -, htake, -⟩ := List.range'_eq_append_iff.mp
    (hf.keys_eq.symm.trans (List.take_append_drop n _).symm)
  have hlen : b.accepted.length = k := by
    rw [h.accepted, List.length_map, htake, List.length_range']
  refine ⟨h.complete, h.outstanding, fun hnil ↦ absurd hnil hne, ?_, fun g hg hle ↦ ?_, ?_⟩
  · rw [hlen, h.accepted, htake]
  · have hmem : g ∈ blocks.keys.take n := by
      rw [htake, List.mem_range'_1]
      omega
    rw [h.acceptedTips]
    exact (hf.under (ExtTreeMap.mem_keys.mp (List.mem_of_mem_take hmem))).2
  · rw [h.finished]
    exact fun hfin ↦ absurd hfin Bool.false_ne_true

/-- Blocks accepted to the top of what was fetched. -/
theorem Settled.complete_of_keys {tree : Tree}
    {blocks : Blocks} (hf : Fetched L tips tree blocks fun _ ↦ False)
    (h : Settled cfg tips (blocks.keys.map L.block) b) {g : ℕ} (hg : L.base < g)
    (hu : L.Under b.acceptedTips g) : g ≤ L.base + b.accepted.length := by
  rw [h.acceptedTips] at hu
  have hmem := ExtTreeMap.mem_keys.mpr (hf.mem_iff_under.mpr ⟨hg, hu⟩)
  rw [hf.keys_eq, List.mem_range'_1] at hmem
  rw [h.accepted, List.length_map]
  omega

/-- What is not finished yet has accepted everything. -/
structure Exhausted (L : Lineage cfg) (b : Bootstrapper W) : Prop extends Executed L b where
  exhausted : ∀ h, L.base < h → L.Under b.acceptedTips h → h ≤ L.base + b.accepted.length

theorem execute_exhausted (L : Lineage cfg) :
    Handler.Spec (fun b ↦ Seeking L [] b ∧ b.outstanding = ∅) (execute cfg)
      (fun _ ↦ Exhausted L) (Executed L) := by
  rw [Handler.spec_iff]
  rintro b ⟨hb, hout⟩
  have hf : Fetched L b.acceptedTips b.tree b.blocks fun _ ↦ False := by
    refine hb.fetched.congr (fun _ h ↦ h.elim) ?_
    rintro h - (⟨k, hk⟩ | hmem)
    · rw [hout] at hk
      simp at hk
    · cases hmem
  have hheights : ∀ h ∈ b.blocks.keys, L.base < h ∧ h ≤ L.top := fun h hh ↦
    (hf.under (ExtTreeMap.mem_keys.mp hh)).imp_right Lineage.Under.le_top
  have hsettled : Settled cfg b.acceptedTips [] b :=
    ⟨hb.complete, hout, rfl, hb.accepted, hb.finished⟩
  have hblocks : ∀ h ∈ b.blocks.keys, b.blocks[h]? = some (L.block h).bytes := fun h hh ↦ by
    have hget := ExtTreeMap.getElem?_eq_some_getElem (ExtTreeMap.mem_keys.mp hh)
    rw [hget, (hf.stored h _ hget).2.2]
  have hspec := Handler.spec_iff.mp
    (executeHeights_settled L b.acceptedTips hheights ExtTreeMap.nodup_keys []) b
    ⟨hsettled, hblocks⟩
  rw [← hb.lastAcceptedHeight] at hspec
  have houtcome : (execute cfg).outcome b =
      (executeHeights cfg b.lastAcceptedHeight b.blocks.keys).outcome b := rfl
  have hexec : (execute cfg).exec b =
      (executeHeights cfg b.lastAcceptedHeight b.blocks.keys).exec b := rfl
  rw [houtcome, hexec]
  split at hspec
  · have hall : Executed L _ := Settled.executed (n := b.blocks.keys.length) hf hb.nonempty
      (by rw [List.take_length]; exact hspec)
    exact ⟨hall, fun h ↦ hspec.complete_of_keys hf⟩
  · obtain ⟨n, hspec⟩ := hspec
    exact hspec.executed hf hb.nonempty

theorem finish_executed (L : Lineage cfg) :
    Handler.Spec (Exhausted L) finish (fun _ ↦ Executed L) (Executed L) := by
  refine Handler.spec_modifyGet fun b hb ↦ ?_
  dsimp only
  split
  · exact hb.toExecuted
  · exact { hb with finished := fun _ ↦ hb.exhausted }

theorem tryStartExecuting_executed (L : Lineage cfg) :
    Handler.Spec (Seeking L []) (tryStartExecuting cfg)
      (fun _ b ↦ Seeking L [] b ∨ Executed L b) (Executed L) := by
  have hexecute := execute_exhausted L
  have hfinish := finish_executed L
  mvcgen [tryStartExecuting, hexecute, hfinish]
  · exact Or.inl (by assumption)
  · exact Or.inl (by assumption)
  · rename_i b hb hout _ t
    refine ⟨{ hb with }, ?_⟩
    simpa using hout
  · exact Or.inr

/-! ## Replies while fetching -/

/-- The answered request is no longer outstanding, and its block is to be requested again. -/
theorem Seeking.erase (h : Seeking L [] b)
    {k : NodeId ×ₗ UInt32} {wanted : Id} (hk : b.outstanding[k]? = some wanted) :
    Seeking L [wanted] { b with outstanding := b.outstanding.erase k } := by
  refine { h with fetched := h.fetched_of_awaits fun i ↦ ?_ }
  simp only [Awaits, TreeMap.getElem?_erase_eq, List.mem_singleton, List.not_mem_nil, or_false]
  constructor
  · rintro (⟨k', hk'⟩ | rfl)
    · split_ifs at hk'
      exact ⟨k', hk'⟩
    · exact ⟨k, hk⟩
  · rintro ⟨k', hk'⟩
    by_cases heq : k = k'
    · subst heq
      exact Or.inr (Option.some.inj (hk'.symm.trans hk))
    · exact Or.inl ⟨k', by rw [if_neg heq, hk']⟩

theorem NextFree.erase (h : b.NextFree) (k : NodeId ×ₗ UInt32) :
    NextFree { b with outstanding := b.outstanding.erase k } := fun k' hk' ↦
  h k' (ExtTreeMap.mem_keys.mpr (ExtTreeMap.mem_of_mem_erase (ExtTreeMap.mem_keys.mp hk')))

theorem ancestors_seeking (L : Lineage cfg) (node : NodeId) (req : UInt32)
    {containers : List (List UInt8)} (hparse : ∀ c ∈ containers, ∃ blk, L.parse c = .ok blk) :
    Handler.Spec (fun b ↦ Seeking L [] b ∧ b.NextFree) (ancestors cfg node req containers)
      (fun _ b ↦ Seeking L [] b ∨ Executed L b) (fun b ↦ Seeking L [] b ∨ Executed L b) := by
  have hfetch (id : Id) := fetch_seeking L id []
  have hbatch (wanted : Id) := batchedParseBlock_seeking L [wanted] hparse
  have htry := tryStartExecuting_executed L
  have hprocess (chain : List Block) (first : Block) := processChain_seeking L chain first
  mvcgen [ancestors, hfetch, hbatch, htry, hprocess]
  · rename_i b h _
    exact Or.inl h.1
  · rename_i b h wanted hwanted t _
    exact ⟨h.1.erase hwanted, h.2.erase _⟩
  · exact Or.inl
  · rename_i b h wanted hwanted t _
    exact ⟨h.1.erase hwanted, h.2.erase _⟩
  · rename_i h
    exact h.1
  · exact Or.inl
  · rename_i h
    exact h.1
  · exact Or.inl
  · rename_i wanted _ t _ chain first rest _ hfirst b h
    rw [not_not] at hfirst
    subst hfirst
    exact ⟨h.1, List.mem_cons_self, h.2⟩
  · exact id
  · exact Or.inr

theorem getAncestorsFailed_seeking (L : Lineage cfg) (node : NodeId) (req : UInt32) :
    Handler.Spec (fun b ↦ Seeking L [] b ∧ b.NextFree) (getAncestorsFailed cfg node req)
      (fun _ ↦ Seeking L []) fun _ ↦ False := by
  have hfetch (id : Id) := fetch_seeking L id []
  mvcgen [getAncestorsFailed, hfetch]
  · rename_i b h _
    exact h.1
  · rename_i b h wanted hwanted t
    exact ⟨h.1.erase hwanted, h.2.erase _⟩

/-- A reply to a request that is not outstanding changes nothing. -/
theorem ancestors_of_not_mem (cfg : Config W) {node : NodeId} {req : UInt32}
    (h : toLex (node, req) ∉ b.outstanding) (containers : List (List UInt8)) :
    (ancestors cfg node req containers).exec b = b := by
  refine Handler.Spec.exec (P := fun b' ↦ b' = b) (I := fun b' ↦ b' = b) ?_ rfl
  mvcgen [ancestors]
  all_goals
    rename_i b' heq wanted hwanted t _
    subst heq
    exact absurd (ExtTreeMap.mem_iff_isSome_getElem?.mpr (Option.isSome_of_eq_some hwanted)) h

theorem getAncestorsFailed_of_not_mem (cfg : Config W) {node : NodeId} {req : UInt32}
    (h : toLex (node, req) ∉ b.outstanding) :
    (getAncestorsFailed cfg node req).exec b = b := by
  refine Handler.Spec.exec (P := fun b' ↦ b' = b) (I := fun b' ↦ b' = b) ?_ rfl
  mvcgen [getAncestorsFailed]
  rename_i b' heq wanted hwanted t
  subst heq
  exact absurd (ExtTreeMap.mem_iff_isSome_getElem?.mpr (Option.isSome_of_eq_some hwanted)) h

/-! ## Agreeing on the tips -/

/-- Nothing has been fetched. -/
structure Idle (b : Bootstrapper W) : Prop where
  outstanding : b.outstanding = ∅
  tree : b.tree = Tree.new
  blocks : b.blocks = ∅
  accepted : b.accepted = []
  finished : b.finished = false

/-- Some beacon has not responded. -/
structure Waiting (L : Lineage cfg) (b : Bootstrapper W) : Prop where
  mem : ∀ node ∈ b.acceptedReplies, node ∈ cfg.beacons
  missing : ∃ node ∈ cfg.beacons, node ∉ b.acceptedReplies
  lastAcceptedHeight : b.phase ≠ .initializing → b.lastAcceptedHeight = L.base
  idle : Idle b

/-- The stages of a run. -/
inductive Stage (L : Lineage cfg) (b : Bootstrapper W) : Prop
  | waiting : Waiting L b → Stage L b
  | seeking : Seeking L [] b → Stage L b
  | executed : Executed L b → Stage L b

/-- The tips lie on the chain. -/
def TipsOnChain (L : Lineage cfg) (b : Bootstrapper W) : Prop :=
  ∀ id ∈ b.acceptedTips.toList, L.OnChain id

instance (L : Lineage cfg) (b : Bootstrapper W) : Decidable (TipsOnChain L b) :=
  List.decidableBAll L.OnChain b.acceptedTips.toList

/-- The last response is in. -/
structure Ready (L : Lineage cfg) (b : Bootstrapper W) : Prop where
  complete : ∀ node ∈ cfg.beacons, node ∈ b.acceptedReplies
  nonempty : cfg.beacons.keys ≠ []
  lastAcceptedHeight : b.lastAcceptedHeight = L.base
  idle : Idle b

theorem Ready.seeking (h : Ready L b) (htips : ∀ id ∈ tips.toList, L.OnChain id) :
    Seeking L tips.toList { b with acceptedTips := tips, phase := .fetching } := by
  refine ⟨h.complete, h.nonempty, h.lastAcceptedHeight, h.idle.accepted, h.idle.finished, ?_⟩
  rw [h.idle.tree, h.idle.blocks]
  exact Fetched.start htips fun i ↦ by simp [Awaits, h.idle.outstanding]

/-- What more than half of the weight has reported lies on the chain. -/
def PicksOnChain (L : Lineage cfg) (acceptedWeight : ExtTreeMap Id ℕ) : Prop :=
  ∀ p ∈ acceptedWeight.toList, cfg.weightThreshold < p.2 → L.OnChain p.1

theorem PicksOnChain.onChain {acceptedWeight : ExtTreeMap Id ℕ}
    (h : PicksOnChain L acceptedWeight) :
    ∀ id ∈ (ExtTreeSet.ofList ((acceptedWeight.toList.filter fun p ↦
      cfg.weightThreshold < p.2).map Prod.fst)).toList, L.OnChain id := by
  intro id hid
  rw [ExtTreeSet.mem_toList, ExtTreeSet.mem_ofList, List.contains_iff_mem, List.mem_map] at hid
  obtain ⟨p, hp, rfl⟩ := hid
  obtain ⟨hmem, hlt⟩ := List.mem_filter.mp hp
  exact h p hmem (of_decide_eq_true hlt)

/-- Picking tips on the chain starts fetching their ancestry. -/
theorem beginFetching_stage (L : Lineage cfg) :
    Handler.Spec (fun b ↦ Ready L b ∧ b.acceptedWeight.size ≤ 2 ^ 32 ∧
      PicksOnChain L b.acceptedWeight) (beginFetching cfg) (fun _ ↦ Stage L) (Stage L) := by
  refine Handler.spec_of_exec ?_
  rintro b ⟨hready, hsize, hchain⟩
  let tips : ExtTreeSet Id := ExtTreeSet.ofList
    ((b.acceptedWeight.toList.filter fun p ↦ cfg.weightThreshold < p.2).map Prod.fst)
  let b₀ : Bootstrapper W := { b with acceptedTips := tips, phase := .fetching }
  let rest : BootstrapM W Unit := do
    fetchAll cfg tips.toList
    tryStartExecuting cfg
  have hlen : 0 + tips.toList.length ≤ 2 ^ 32 := by
    rw [Nat.zero_add, ExtTreeSet.length_toList]
    refine ExtTreeSet.size_ofList_le.trans ?_
    rw [List.length_map]
    refine (List.length_filter_le _ _).trans ?_
    rwa [ExtTreeMap.length_toList]
  have hrecent : b₀.Recent 0 := fun k hk ↦ by
    change k ∈ b.outstanding at hk
    rw [hready.idle.outstanding] at hk
    exact absurd hk ExtTreeMap.not_mem_empty
  have hrest : Handler.Spec (fun b ↦ Seeking L tips.toList b ∧ b.Recent 0) rest
      (fun _ ↦ Stage L) (Stage L) := by
    have hall := fetchAll_seeking L tips.toList 0 hlen
    have htry := tryStartExecuting_executed L
    mvcgen [rest, hall, htry]
    · rintro (h | h)
      · exact .seeking h
      · exact .executed h
    · exact .executed
  exact hrest.exec (s := b₀) ⟨hready.seeking hchain.onChain, hrecent⟩

/-- All beacons have responded exactly if as many have as there are. -/
theorem size_eq_iff {replies : ExtTreeSet NodeId} (hmem : ∀ node ∈ replies, node ∈ cfg.beacons) :
    replies.size = cfg.beacons.size ↔ ∀ node ∈ cfg.beacons, node ∈ replies := by
  rw [← ExtTreeSet.length_toList, ← ExtTreeMap.length_keys]
  have hnodup : replies.toList.Nodup :=
    ExtTreeSet.distinct_toList.imp fun hne heq ↦ hne (LawfulEqCmp.compare_eq_iff_eq.mpr heq)
  have hsub : List.Subperm replies.toList cfg.beacons.keys := hnodup.subperm fun node hnode ↦
    ExtTreeMap.mem_keys.mpr (hmem node (ExtTreeSet.mem_toList.mp hnode))
  constructor
  · intro hlen node hnode
    have hperm := hsub.perm_of_length_le hlen.ge
    exact ExtTreeSet.mem_toList.mp (hperm.mem_iff.mpr (ExtTreeMap.mem_keys.mpr hnode))
  · intro hall
    have hsub' : List.Subperm cfg.beacons.keys replies.toList :=
      ExtTreeMap.nodup_keys.subperm fun node hnode ↦
        ExtTreeSet.mem_toList.mpr (hall node (ExtTreeMap.mem_keys.mp hnode))
    exact Nat.le_antisymm hsub.length_le hsub'.length_le

theorem size_tally_le (weight : ℕ) (ids : List Id) (m : ExtTreeMap Id ℕ) :
    (tally weight ids m).size ≤ m.size + ids.length := by
  induction ids generalizing m with
  | nil => exact Nat.le_refl _
  | cons id ids ih =>
    calc (tally weight (id :: ids) m).size
        ≤ (m.insert id (saturatingAdd (m[id]?.getD 0) weight)).size + ids.length := ih _
      _ ≤ m.size + 1 + ids.length := Nat.add_le_add_right ExtTreeMap.size_insert_le _
      _ = m.size + (id :: ids).length := by rw [List.length_cons]; omega

section Respond

variable {node : NodeId} {replies : ExtTreeSet NodeId}

theorem mem_insert_reply (hmem : ∀ n ∈ replies, n ∈ cfg.beacons) (hnode : node ∈ cfg.beacons) :
    ∀ n ∈ replies.insert node, n ∈ cfg.beacons := fun n hn ↦ by
  rw [ExtTreeSet.mem_insert, LawfulEqCmp.compare_eq_iff_eq] at hn
  obtain rfl | hn := hn
  · exact hnode
  · exact hmem n hn

variable (cfg node) in
theorem acceptedReplies_counted (reply : Option (List Id)) :
    (counted cfg node reply b).acceptedReplies = b.acceptedReplies.insert node := by
  cases reply <;> rfl

/-- A response while some beacon is missing either leaves one missing or completes the round. -/
theorem Waiting.counted (h : Waiting L b) (hphase : b.phase = .agreeingFrontier)
    (hnode : node ∈ cfg.beacons) (reply : Option (List Id)) :
    if (counted cfg node reply b).acceptedReplies.size = cfg.beacons.size
      then Ready L (counted cfg node reply b) else Waiting L (counted cfg node reply b) := by
  have hmem := mem_insert_reply h.mem hnode
  have hlast := h.lastAcceptedHeight (by rw [hphase]; nofun)
  have hidle : Idle (Bootstrapper.counted cfg node reply b) := by
    cases reply <;> exact { h.idle with }
  have hheight : (Bootstrapper.counted cfg node reply b).lastAcceptedHeight = L.base := by
    cases reply <;> exact hlast
  rw [← acceptedReplies_counted cfg node reply] at hmem
  split_ifs with hsize
  · refine ⟨(size_eq_iff hmem).mp hsize, fun hnil ↦ ?_, hheight, hidle⟩
    exact absurd (ExtTreeMap.mem_keys.mpr hnode) (by rw [hnil]; exact List.not_mem_nil)
  · have hmissing := mt (size_eq_iff hmem).mpr hsize
    push Not at hmissing
    exact ⟨hmem, hmissing, fun _ ↦ hheight, hidle⟩

/-- A response of the beacon is the last one of the second round. -/
def Completes (cfg : Config W) (b : Bootstrapper W) (node : NodeId) : Prop :=
  b.phase = .agreeingFrontier ∧ node ∈ cfg.beacons ∧ node ∉ b.acceptedReplies ∧
    (b.acceptedReplies.insert node).size = cfg.beacons.size

/-- Once all beacons have responded, further responses change nothing. -/
theorem Stage.response (h : Stage L b) {m : Message} {reply : Option (List Id)}
    (hm : m.response = some (node, reply))
    (hsize : (counted cfg node reply b).acceptedWeight.size ≤ 2 ^ 32)
    (hpicks : Completes cfg b node → PicksOnChain L (counted cfg node reply b).acceptedWeight) :
    Stage L ((handle cfg m).exec b) := by
  obtain hsame | ⟨hphase, hnode, hfirst, hexec⟩ := handle_response cfg hm b
  · rwa [hsame]
  cases h with
  | waiting h =>
    have hnext := h.counted hphase hnode reply
    rw [hexec]
    split_ifs at hnext ⊢ with hcomplete
    · rw [acceptedReplies_counted] at hcomplete
      exact (beginFetching_stage L).exec ⟨hnext, hsize, hpicks ⟨hphase, hnode, hfirst, hcomplete⟩⟩
    · exact .waiting hnext
  | seeking h => exact absurd (h.complete node hnode) hfirst
  | executed h => exact absurd (h.complete node hnode) hfirst

end Respond

/-! ## Starting and discovering the frontier -/

/-- What the stages are about, but for the phase and the last accepted height. -/
def progress (b : Bootstrapper W) :=
  (b.acceptedReplies, b.acceptedTips, b.outstanding, b.tree, b.blocks, b.accepted, b.finished)

/-- The stage stays the same if nothing is counted, fetched or executed. -/
theorem Stage.congr {b b' : Bootstrapper W} (h : Stage L b) (hprogress : b'.progress = b.progress)
    (hlast : (b'.phase ≠ .initializing → b.phase ≠ .initializing) ∧
        b'.lastAcceptedHeight = b.lastAcceptedHeight ∨
      (b.accepted = [] → b'.lastAcceptedHeight = L.base)) : Stage L b' := by
  simp only [progress, Prod.mk.injEq] at hprogress
  obtain ⟨hreplies, htips, hout, htree, hblocks, haccepted, hfinished⟩ := hprogress
  cases h with
  | waiting h =>
    have hidle : Idle b' := ⟨hout ▸ h.idle.outstanding, htree ▸ h.idle.tree,
      hblocks ▸ h.idle.blocks, haccepted ▸ h.idle.accepted, hfinished ▸ h.idle.finished⟩
    refine .waiting ⟨hreplies ▸ h.mem, hreplies ▸ h.missing, fun hne ↦ ?_, hidle⟩
    obtain ⟨hinit, heq⟩ | hbase := hlast
    · rw [heq, h.lastAcceptedHeight (hinit hne)]
    · exact hbase h.idle.accepted
  | seeking h =>
    have hbase : b'.lastAcceptedHeight = L.base :=
      hlast.elim (fun heq ↦ heq.2.trans h.lastAcceptedHeight) fun hbase ↦ hbase h.accepted
    refine .seeking ⟨hreplies ▸ h.complete, h.nonempty, hbase, haccepted ▸ h.accepted,
      hfinished ▸ h.finished, ?_⟩
    simp only [Awaits, htips, htree, hblocks, hout]
    exact h.fetched
  | executed h =>
    refine .executed ⟨hreplies ▸ h.complete, hout ▸ h.outstanding, htips ▸ h.tips,
      haccepted ▸ h.accepted, ?_, ?_⟩
    · rw [htips, haccepted]
      exact h.under
    · rw [htips, haccepted, hfinished]
      exact h.finished

theorem frontierResponse_stage (L : Lineage cfg) (node : NodeId) (reply : Option Id) :
    Handler.Keeps (Stage L) (frontierResponse cfg node reply) := by
  mvcgen [frontierResponse, maybeBeginFrontierAgreement, restartFrontierDiscovery,
    beginFrontierAgreement, queryFrontier, send]
  · rename_i b h _ _ t _
    exact h.congr rfl (.inl ⟨id, rfl⟩)
  · rename_i b h _ _ t _ _ _ _ _
    exact h.congr rfl (.inl ⟨id, rfl⟩)
  · rename_i b h hguard _ t _ _ _ _ _
    rw [not_or, not_not] at hguard
    exact h.congr rfl (.inl ⟨fun _ ↦ by simp [hguard.1], rfl⟩)

/-- The last accepted block, if it can be read, is the one the chain starts from. -/
def ReadsBase (L : Lineage cfg) (b : Bootstrapper W) : Prop :=
  ∀ id blk, (cfg.vm.lastAccepted b.world).1 = .ok id →
    (cfg.vm.getBlock id (cfg.vm.lastAccepted b.world).2).1 = .ok blk → blk = L.block L.base

/-- Without beacons there is nothing to execute. -/
theorem finish_stage (L : Lineage cfg) :
    Handler.Spec (fun b ↦ Stage L b ∧ cfg.beacons.isEmpty = true) finish
      (fun _ ↦ Stage L) (Stage L) := by
  refine Handler.spec_modifyGet fun b h ↦ ?_
  obtain ⟨h, hempty⟩ := h
  have hkeys : cfg.beacons.keys = [] := by
    rw [ExtTreeMap.isEmpty_iff] at hempty
    rw [hempty]
    rfl
  dsimp only
  split
  · exact h
  cases h with
  | waiting h =>
    obtain ⟨node, hnode, -⟩ := h.missing
    exact absurd (ExtTreeMap.mem_keys.mpr hnode) (by rw [hkeys]; exact List.not_mem_nil)
  | seeking h => exact absurd hkeys h.nonempty
  | executed h =>
    refine .executed { h with finished := fun _ g _ hu ↦ ?_ }
    obtain ⟨t, -, -, hmem⟩ := hu
    rw [h.tips hkeys] at hmem
    exact absurd hmem ExtTreeSet.not_mem_empty

theorem start_stage (L : Lineage cfg) (startReqId : UInt32) :
    Handler.Spec (fun b ↦ Stage L b ∧ (b.accepted = [] → ReadsBase L b)) (start cfg startReqId)
      (fun _ ↦ Stage L) (Stage L) := by
  have hfinish := finish_stage L
  have hread {b : Bootstrapper W} (h : b.accepted = [] → ReadsBase L b) {id : Id} {blk : Block}
      (hid : (cfg.vm.lastAccepted b.world).1 = .ok id)
      (hblk : (cfg.vm.getBlock id (cfg.vm.lastAccepted b.world).2).1 = .ok blk) :
      b.accepted = [] → blk.height = L.base := fun hnil ↦ by
    rw [h hnil id blk hid hblk, L.height_block L.base_le_top]
  mvcgen [start, checkHalt, outside, queryFrontier, send, hfinish]
  · rename_i b h _
    exact h.1
  · rename_i b h _ t₁ t₂ id hid t₃ blk hblk t₄ t₅ t₆ hempty
    exact ⟨h.1.congr rfl (.inr (hread h.2 hid hblk)), hempty⟩
  · rename_i b h _ t₁ t₂ id hid t₃ blk hblk t₄ t₅ t₆ _
    exact h.1.congr rfl (.inr (hread h.2 hid hblk))
  · rename_i b h _ t₁ t₂ _ _ t₃ msg _
    exact h.1.congr rfl (.inl ⟨id, rfl⟩)
  · rename_i b h _ t₁ t₂ msg _
    exact h.1.congr rfl (.inl ⟨id, rfl⟩)

/-! ## Runs -/

/-- The messages that keep the fetched blocks in order: the last accepted block is where the chain
starts, what the tally picks when it is complete lies on the chain, requests do not reuse an id that
is outstanding, and every container of an awaited reply parses. -/
def Orderly (L : Lineage cfg) (b : Bootstrapper W) : Message → Prop
  | .start _ => b.accepted = [] → ReadsBase L b
  | .accepted node _ ids => b.acceptedWeight.size + ids.length ≤ 2 ^ 32 ∧
    (Completes cfg b node → PicksOnChain L (tally (cfg.weightOf node) ids b.acceptedWeight))
  | .getAcceptedFailed node _ => b.acceptedWeight.size ≤ 2 ^ 32 ∧
    (Completes cfg b node → PicksOnChain L b.acceptedWeight)
  | .ancestors node req containers => toLex (node, req) ∈ b.outstanding →
    b.NextFree ∧ ∀ c ∈ containers, ∃ blk, L.parse c = .ok blk
  | .getAncestorsFailed node req => toLex (node, req) ∈ b.outstanding → b.NextFree
  | _ => True

theorem stage_new (L : Lineage cfg) (world : W) : Stage L (new world) := by
  have hidle : Idle (new world) := ⟨rfl, rfl, rfl, rfl, rfl⟩
  have hempty (node : NodeId) : node ∉ (new world).acceptedReplies := ExtTreeSet.not_mem_empty
  by_cases hmissing : ∃ node, node ∈ cfg.beacons
  · obtain ⟨node, hnode⟩ := hmissing
    exact .waiting ⟨fun n hn ↦ absurd hn (hempty n), ⟨node, hnode, hempty node⟩,
      fun hne ↦ absurd rfl hne, hidle⟩
  · refine .executed ⟨fun n hn ↦ absurd ⟨n, hn⟩ hmissing, rfl,
      fun _ ↦ rfl, rfl, fun h hlt hle ↦ ?_, fun h ↦ ?_⟩
    · exact absurd (Nat.lt_of_lt_of_le hlt hle) (Nat.lt_irrefl _)
    · cases h

/-- A request is outstanding only while fetching. -/
theorem Stage.seeking_of_mem (h : Stage L b)
    {k : NodeId ×ₗ UInt32} (hk : k ∈ b.outstanding) : Seeking L [] b := by
  cases h with
  | waiting h =>
    rw [h.idle.outstanding] at hk
    exact absurd hk ExtTreeMap.not_mem_empty
  | seeking h => exact h
  | executed h =>
    rw [h.outstanding] at hk
    exact absurd hk ExtTreeMap.not_mem_empty

theorem Stage.step {m : Message} (h : Stage L b)
    (ho : Orderly L b m) : Stage L ((handle cfg m).exec b) := by
  cases m with
  | start startReqId => exact (start_stage L startReqId).exec ⟨h, ho⟩
  | acceptedFrontier node req containerId =>
    exact (frontierResponse_stage L node (some containerId)).exec h
  | getAcceptedFrontierFailed node req => exact (frontierResponse_stage L node none).exec h
  | accepted node req ids => exact h.response rfl ((size_tally_le _ _ _).trans ho.1) ho.2
  | getAcceptedFailed node req => exact h.response rfl ho.1 ho.2
  | ancestors node req containers =>
    by_cases hk : toLex (node, req) ∈ b.outstanding
    · obtain ⟨hfree, hparse⟩ := ho hk
      obtain hnext | hnext :=
        (ancestors_seeking L node req hparse).exec ⟨h.seeking_of_mem hk, hfree⟩
      · exact .seeking hnext
      · exact .executed hnext
    · rw [handle, ancestors_of_not_mem cfg hk]
      exact h
  | getAncestorsFailed node req =>
    by_cases hk : toLex (node, req) ∈ b.outstanding
    · have hspec := Handler.spec_iff.mp (getAncestorsFailed_seeking L node req) b
        ⟨h.seeking_of_mem hk, ho hk⟩
      split at hspec
      · exact .seeking hspec
      · exact hspec.elim
    · rw [handle, getAncestorsFailed_of_not_mem cfg hk]
      exact h

/-- Whatever the stage, the accepted blocks are those at the heights from the last accepted one on,
up to one that is not above the tips, and the highest tip once the bootstrapper has finished. -/
theorem Stage.accepted_eq (h : Stage L b) :
    b.accepted = (List.range' (L.base + 1) b.accepted.length).map L.block ∧
      (∀ h, L.base < h → h ≤ L.base + b.accepted.length → L.Under b.acceptedTips h) ∧
      (b.finished = true → ∀ h, L.base < h → L.Under b.acceptedTips h →
        h ≤ L.base + b.accepted.length) := by
  cases h with
  | waiting h =>
    rw [h.idle.accepted, h.idle.finished]
    exact ⟨rfl, fun h hlt hle ↦ absurd hlt (Nat.not_lt.mpr hle), nofun⟩
  | seeking h =>
    rw [h.accepted, h.finished]
    exact ⟨rfl, fun h hlt hle ↦ absurd hlt (Nat.not_lt.mpr hle), nofun⟩
  | executed h => exact ⟨h.accepted, h.under, h.finished⟩

/-- Once the bootstrapper has finished, the blocks at and below the tips are accepted. -/
theorem Stage.block_mem_accepted (hb : Stage L b)
    (hfin : b.finished = true) {h : ℕ} (hlt : L.base < h) (hu : L.Under b.acceptedTips h) :
    L.block h ∈ b.accepted := by
  obtain ⟨haccepted, -, hfinished⟩ := hb.accepted_eq
  have hle := hfinished hfin h hlt hu
  rw [haccepted]
  exact List.mem_map_of_mem (List.mem_range'_1.mpr ⟨hlt, by omega⟩)

/-- The blocks of the chain from one height on follow each other. -/
theorem isChain_range' (L : Lineage cfg) {n a : ℕ} (htop : a + n ≤ L.top) :
    List.IsChain (fun x y : Block ↦ y.parent = x.id ∧ y.height = x.height + 1)
      ((List.range' a (n + 1)).map L.block) := by
  induction n generalizing a with
  | zero => exact List.isChain_singleton _
  | succ n ih =>
    rw [List.range'_succ, List.map_cons, List.range'_succ, List.map_cons, List.isChain_cons_cons]
    refine ⟨⟨L.parent_block (by omega), ?_⟩, ?_⟩
    · rw [L.height_block (by omega), L.height_block (by omega)]
    · have hrest := ih (a := a + 1) (by omega)
      rwa [List.range'_succ, List.map_cons] at hrest

theorem stage_run (L : Lineage cfg) (world : W) {msgs : List Message}
    (hrun : Handler.Along (handle cfg) (Orderly L) (new world) msgs) :
    Stage L (run cfg world msgs) :=
  Handler.execAll_of_along (fun _ _ h ho ↦ h.step ho) hrun (stage_new L world)

/-- In an orderly run the tips lie on the chain. -/
theorem tipsOnChain_run (L : Lineage cfg) (world : W) {msgs : List Message}
    (hrun : Handler.Along (handle cfg) (Orderly L) (new world) msgs) :
    TipsOnChain L (run cfg world msgs) := by
  let P : BallotProp := fun _ _ tips _ ↦ ∀ id ∈ tips.toList, L.OnChain id
  have hnew : TipsOnChain L (new world) := fun id hid ↦
    absurd (ExtTreeSet.mem_toList.mp hid) ExtTreeSet.not_mem_empty
  refine Handler.execAll_of_along (fun b m (h : Ballot P b) ho ↦ ?_) hrun hnew
  refine Ballot.step h fun node reply hm hphase hnode hfirst ↦ ?_
  rw [acceptedReplies_counted]
  split_ifs with hsize
  · have hpicks : PicksOnChain L (counted cfg node reply b).acceptedWeight := by
      cases m <;> cases hm <;> exact ho.2 ⟨hphase, hnode, hfirst, hsize⟩
    have hkeeps : Handler.Spec (fun b ↦ PicksOnChain L b.acceptedWeight) (beginFetching cfg)
        (fun _ ↦ Ballot P) (Ballot P) := by
      mvcgen [beginFetching, fetchAll_ballot, tryStartExecuting_ballot]
      exact PicksOnChain.onChain ‹_›
    exact hkeeps.exec hpicks
  · cases reply <;> exact h

/-- **One connected chain.** In an orderly run the accepted blocks follow the last accepted block
and each other, and lie at or below a tip. Once the bootstrapper has finished, they are all the
blocks above the last accepted one and at or below a tip. -/
theorem accepted_isChain (L : Lineage cfg) (world : W) {msgs : List Message}
    (hrun : Handler.Along (handle cfg) (Orderly L) (new world) msgs) :
    let b := run cfg world msgs
    List.IsChain (fun x y : Block ↦ y.parent = x.id ∧ y.height = x.height + 1)
        (L.block L.base :: b.accepted) ∧
      (∀ blk ∈ b.accepted, ∃ h, L.base < h ∧ L.Under b.acceptedTips h ∧ blk = L.block h) ∧
      (b.finished = true → ∀ h, L.base < h → L.Under b.acceptedTips h →
        L.block h ∈ b.accepted) := by
  intro b
  have hstage : Stage L b := stage_run L world hrun
  obtain ⟨haccepted, hunder, -⟩ := hstage.accepted_eq
  have htop : L.base + b.accepted.length ≤ L.top := by
    obtain hnil | hpos := Nat.eq_zero_or_pos b.accepted.length
    · rw [hnil]
      exact L.base_le_top
    · exact (hunder _ (by omega) (Nat.le_refl _)).le_top
  refine ⟨?_, fun blk hblk ↦ ?_, fun hfin h ↦ hstage.block_mem_accepted hfin⟩
  · have hchain := isChain_range' L htop
    rwa [List.range'_succ, List.map_cons, ← haccepted] at hchain
  · rw [haccepted] at hblk
    obtain ⟨h, hh, rfl⟩ := List.mem_map.mp hblk
    obtain ⟨hlt, hle⟩ := List.mem_range'_1.mp hh
    exact ⟨h, hlt, hunder h hlt (by omega), rfl⟩

/-! ## One beacon -/

/-- The three blocks, from the last accepted one at height zero on. -/
def demoLineage : Lineage (demoConfig [1]) where
  base := 0
  top := 2
  base_le_top := by decide
  block := demoBlock
  parse := demoParse
  parseBlock_eq _ _ := rfl
  height_block _ := rfl
  parent_block _ := rfl
  parse_block {h} hh := by interval_cases h <;> rfl
  eq_block {bytes b h} hparse hh hid := by
    rw [demoParse] at hparse
    split_ifs at hparse <;> cases hparse <;> interval_cases h <;>
      first | rfl | exact absurd hid (by decide)

/-- The beacon reports the blocks at heights one and two; the ancestry of the upper one is requested
last. -/
def demoFetch (reply : List (List UInt8)) : List Message :=
  [.start 0, .acceptedFrontier 1 1 12, .accepted 1 2 [11, 12], .ancestors 1 4 reply,
    .ancestors 1 3 [[1]]]

theorem demoFetch_orderly : Handler.Along (handle (demoConfig [1])) (Orderly demoLineage) (new ())
    (demoFetch [[2], [1]]) := by
  refine ⟨fun _ id blk hid hblk ↦ ?_, trivial, ⟨by decide +kernel, fun _ ↦ ?_⟩,
    fun _ ↦ ⟨by decide +kernel, ?_⟩, fun _ ↦ ⟨by decide +kernel, ?_⟩, trivial⟩
  · cases hid
    cases hblk
    rfl
  · unfold PicksOnChain
    decide +kernel
  · exact List.forall_mem_cons.mpr ⟨⟨_, rfl⟩, List.forall_mem_singleton.mpr ⟨_, rfl⟩⟩
  · exact List.forall_mem_singleton.mpr ⟨_, rfl⟩

/-- Both blocks are accepted if both requests are answered. -/
theorem accepted_isChain_demo :
    let b := run (demoConfig [1]) () (demoFetch [[2], [1]])
    b.finished = true ∧ demoLineage.Under b.acceptedTips 2 ∧
      demoBlock 1 ∈ b.accepted ∧ demoBlock 2 ∈ b.accepted := by
  intro b
  have hfin : b.finished = true := by decide +kernel
  have htip : 12 ∈ b.acceptedTips := by decide +kernel
  have hunder : demoLineage.Under b.acceptedTips 2 := ⟨2, Nat.le_refl 2, Nat.le_refl 2, htip⟩
  obtain ⟨-, -, hall⟩ := accepted_isChain demoLineage () demoFetch_orderly
  exact ⟨hfin, hunder, hall hfin 1 (by decide) (hunder.mono (by decide)),
    hall hfin 2 (by decide) hunder⟩

/-- A reply that does not parse drops its request, and the bootstrapper finishes without the tip. -/
theorem tip_not_accepted :
    let b := run (demoConfig [1]) () (demoFetch [[7]])
    b.finished = true ∧ TipsOnChain demoLineage b ∧ demoLineage.Under b.acceptedTips 2 ∧
      demoBlock 2 ∉ b.accepted := by
  intro b
  have htip : 12 ∈ b.acceptedTips := by decide +kernel
  refine ⟨by decide +kernel, by decide +kernel, ⟨2, Nat.le_refl 2, Nat.le_refl 2, htip⟩, ?_⟩
  intro hmem
  have hids : b.accepted.map Block.id = [11] := by decide +kernel
  have hid := List.mem_map_of_mem (f := Block.id) hmem
  exact absurd hid (by decide +kernel)

end Bootstrapper

end Avalanche.Bootstrap
