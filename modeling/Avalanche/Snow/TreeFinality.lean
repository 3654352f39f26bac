import Avalanche.Snow.TreePreference
import Avalanche.Snow.TreeTrace

/-!
# When a snowball tree finalizes

The last instance on the path of a choice sees exactly the votes for that choice, so its counter is
the number of consecutive polls in which the choice had `alphaConfidence` votes since the last
reset. Confidence does not grow along a path, hence this one counter decides: a poll finalizes the
tree on a choice exactly when the choice has `alphaConfidence` votes and its last counter reaches
`beta` (`Undecided.recordPoll_cases`, `Undecided.finalized_recordPoll`).

`BitTrie.tail` reads that counter on the plain trie, `Tree.level` on the compressed one.
-/

namespace Avalanche

namespace BitTrie

variable {F : LawfulFactory}
variable {decided : List Bool}

/-- The counter of the last instance on the path of `id` from bit `d` on; `c` if there is none. -/
def tail (id : Id) : ℕ → BitTrie F → ℕ → ℕ
  | _, leaf, c => c
  | d, unary _ snow child, _ => child.tail id (d + 1) (F.unaryConfidence snow)
  | d, binary snow children, _ =>
    (children (id.bit d)).tail id (d + 1) (sideConfidence F snow (id.bit d))

/-- Every path from bit `d` on has an instance for each of the remaining bits. -/
def Full : ℕ → BitTrie F → Prop
  | d, leaf => d = numBits
  | d, unary _ _ child => child.Full (d + 1)
  | d, binary _ children => ∀ side, (children side).Full (d + 1)

/-- The votes have followed the path of `id` down to bit `d`. -/
def Follow (votes : Bag Id) (id : Id) (d : ℕ) : Prop :=
  ∀ w ∈ votes.items, w.bitsFrom 0 d = id.bitsFrom 0 d

variable {p : Parameters} {id : Id} {d : ℕ} {t : BitTrie F} {votes : Bag Id}

theorem Follow.agreeing (h : Follow votes id d) :
    Follow (agreeing votes d (id.bit d)) id (d + 1) := by
  intro w hw
  obtain ⟨hmem, hbit⟩ := List.mem_filter.mp hw
  rw [Node.bitsFrom_zero_succ, Node.bitsFrom_zero_succ, h w hmem, of_decide_eq_true hbit]

theorem count_agreeing (votes : Bag Id) (id : Id) (d : ℕ) :
    (agreeing votes d (id.bit d)).count id = votes.count id :=
  List.count_filter (by simp)

/-- Votes that have followed the whole path are votes for the choice itself. -/
theorem Follow.len_eq (h : Follow votes id numBits) : votes.len = votes.count id :=
  (List.count_eq_length.mpr fun w hw ↦ (Id.eq_of_bitsFrom_eq (h w hw)).symm).symm

theorem count_le_len_agreeing (votes : Bag Id) (id : Id) (d : ℕ) :
    votes.count id ≤ (agreeing votes d (id.bit d)).len := by
  rw [← count_agreeing votes id d]
  exact List.count_le_length

/-- Votes for different sides of a bit are disjoint. -/
theorem len_agreeing_add (votes : Bag Id) (d : ℕ) :
    (agreeing votes d true).len + (agreeing votes d false).len = votes.len := by
  have hsplit := List.length_eq_length_filter_add (l := votes.items) fun w ↦ w.bit d
  simp only [agreeing, Bag.len, Bag.items_filter, Bool.decide_eq_true, Bool.decide_eq_false]
  exact hsplit.symm

/-- A side with enough votes is the one the poll is about. -/
theorem majority_eq (hp : p.Verified) (hk : votes.len ≤ p.k.toNat) {side : Bool}
    (h : p.alphaPreference.toNat ≤ (agreeing votes d side).len) :
    side = decide (p.alphaPreference.toNat ≤ (agreeing votes d true).len) := by
  cases side with
  | true => exact (decide_eq_true h).symm
  | false =>
    refine (decide_eq_false fun htrue ↦ Nat.not_le.mpr (hp.not_both ?_ htrue) h).symm
    rw [len_agreeing_add]
    exact hk

theorem tail_congr (ht : t ≠ leaf) (c c' : ℕ) : t.tail id d c = t.tail id d c' := by
  cases t with
  | leaf => exact absurd rfl ht
  | unary bit snow child => rfl
  | binary snow children => rfl

theorem tail_resetAll (t : BitTrie F) (d : ℕ) : t.resetAll.tail id d 0 = 0 := by
  induction t generalizing d with
  | leaf => rfl
  | unary bit snow child ih => rw [resetAll, tail, F.unary_confidence_reset, ih]
  | binary snow children ih =>
    rw [resetAll, tail, sideConfidence, F.binary_confidence_reset, ite_self, ih]

theorem tail_chain_newUnary (bits : List Bool) :
    (chain bits (F.newUnary p) .leaf : BitTrie F).tail id d 0 = 0 := by
  induction bits generalizing d with
  | nil => rfl
  | cons bit bits ih => rw [chain_cons, tail, confidence_newUnary, ih]


theorem Sound.tail_lt (h : t.Sound p) {c : ℕ} (hc : c < p.beta.toNat) :
    t.tail id d c < p.beta.toNat := by
  induction t generalizing d c with
  | leaf => exact hc
  | unary bit snow child ih => exact ih h.2.2.2 (F.unary_confidence_lt h.1 h.2.1)
  | binary snow children ih =>
    exact ih _ (h.2.2 _).2
      ((sideConfidence_le snow _).trans_lt (F.binary_confidence_lt h.1 h.2.1))

/-! ## Full tries -/

theorem full_chain {bits : List Bool} {snow : F.Unary} :
    (chain bits snow t).Full d ↔ t.Full (d + bits.length) := by
  induction bits generalizing d with
  | nil => rfl
  | cons bit bits ih =>
    rw [chain_cons, Full, ih, List.length_cons, show d + 1 + bits.length = d + (bits.length + 1) by
      omega]

/-! ## What a poll does to the last counter -/

/-- **The last counter counts polls for the choice itself.** -/
theorem tail_poll (hp : p.Verified) (h : t.Sound p) (hfull : t.Full d) (hr : t.Routes id d)
    (hk : votes.len ≤ p.k.toNat) (hf : Follow votes id d) (c : ℕ) :
    (t.poll p d votes).tail id d (if p.alphaConfidence.toNat ≤ votes.len then c + 1 else 0)
      = if p.alphaConfidence.toNat ≤ votes.count id then t.tail id d c + 1 else 0 := by
  have hαα := hp.bounds.2.1
  induction t generalizing d votes c with
  | leaf =>
    obtain rfl : d = numBits := hfull
    rw [poll, tail, tail, hf.len_eq]
  | unary bit snow child ih =>
    obtain ⟨hok, hnf, -, hchild⟩ := h
    obtain ⟨rfl, hr⟩ := hr
    have hle := count_le_len_agreeing votes id d
    rw [poll]
    by_cases hn : (agreeing votes d (id.bit d)).len < p.alphaPreference.toNat
    · rw [if_pos hn, if_neg (show ¬ p.alphaConfidence.toNat ≤ votes.count id by omega)]
      exact tail_resetAll (.unary (id.bit d) snow child) d
    · rw [if_neg hn, tail, F.unary_confidence_recordPoll _ hok hnf,
        ih hchild hfull hr ((len_agreeing_le _ _ _).trans hk) hf.agreeing _, count_agreeing, tail]
  | binary snow children ih =>
    obtain ⟨hok, hnf, hchildren⟩ := h
    have hle := count_le_len_agreeing votes id d
    rw [poll_binary _ _ _ _ _ rfl]
    by_cases hn : p.alphaPreference.toNat ≤ (agreeing votes d (id.bit d)).len
    · -- the choice is on the side the poll is about
      rw [← majority_eq hp hk hn, if_neg (Nat.not_lt.mpr hn), tail, if_pos rfl, sideConfidence,
        F.binary_slush_recordPoll _ hok hn, hnf, if_neg Bool.false_ne_true, if_pos rfl,
        F.binary_confidence_recordPoll _ hok hn hnf, ← sideConfidence,
        ih _ (hchildren _).2 (hfull _) hr ((len_agreeing_le _ _ _).trans hk) hf.agreeing _,
          count_agreeing, tail]
    · rw [if_neg (show ¬ p.alphaConfidence.toNat ≤ votes.count id by omega)]
      set bit := decide (p.alphaPreference.toNat ≤ (agreeing votes d true).len)
      by_cases hb : (agreeing votes d bit).len < p.alphaPreference.toNat
      · rw [if_pos hb]
        exact tail_resetAll (.binary snow children) d
      · have hne : id.bit d ≠ bit := fun heq ↦ hb (heq ▸ Nat.lt_of_not_le hn)
        rw [if_neg hb, tail, if_neg hne, sideConfidence,
          F.binary_slush_recordPoll _ hok (Nat.not_lt.mp hb), hnf, if_neg Bool.false_ne_true,
          if_neg (Ne.symm hne)]
        exact tail_resetAll _ _

/-- Reset instances are not finalized, so nothing is decided by a poll that only resets. -/
theorem Sound.dropDecided_resetAll_ne_leaf (h : t.Sound p) (ht : t ≠ leaf) (decided : List Bool) :
    (t.resetAll.dropDecided decided).2 ≠ leaf := by
  rw [dropDecided_of_not_rootFinalized (by rw [rootFinalized_resetAll, h.rootFinalized])]
  cases t with
  | leaf => exact absurd rfl ht
  | unary bit snow child => exact nofun
  | binary snow children => exact nofun

theorem eq_bit_of_dropDecided {bit : Bool} (hdecided : decided = id.bitsFrom 0 d)
    (h : (t.dropDecided (decided ++ [bit])).1 = id.bitsFrom 0 numBits) :
    bit = id.bit d ∧ decided ++ [bit] = id.bitsFrom 0 (d + 1) := by
  have hid : id.bitsFrom 0 (t.dropDecided (decided ++ [bit])).1.length
      = (t.dropDecided (decided ++ [bit])).1 := by
    rw [h, Id.length_bitsFrom]
  have hbit := bit_of_dropDecided hid
  rw [hdecided, Id.length_bitsFrom] at hbit
  exact ⟨hbit.symm, by rw [hdecided, Node.bitsFrom_zero_succ, hbit]⟩

/-- **Deciding the last bit takes a confident poll that completes `beta`.** -/
theorem Sound.confident_of_dropDecided (h : t.Sound p) (hfull : t.Full d)
    (hf : Follow votes id d) (hdecided : decided = id.bitsFrom 0 d) {c : ℕ}
    (hc : t = leaf → p.alphaConfidence.toNat ≤ votes.len ∧ p.beta.toNat ≤ c + 1)
    (heq : (t.poll p d votes).dropDecided decided = (id.bitsFrom 0 numBits, leaf)) :
    p.alphaConfidence.toNat ≤ votes.count id ∧ p.beta.toNat ≤ t.tail id d c + 1 := by
  induction t generalizing d votes c decided with
  | leaf =>
    obtain rfl : d = numBits := hfull
    rw [← hf.len_eq]
    exact hc rfl
  | unary bit snow child ih =>
    have hsound := h
    obtain ⟨hok, hnf, -, hchild⟩ := hsound
    rw [poll] at heq
    by_cases hn : (agreeing votes d bit).len < p.alphaPreference.toNat
    · rw [if_pos hn] at heq
      exact absurd (congrArg Prod.snd heq) (h.dropDecided_resetAll_ne_leaf (by simp) _)
    · rw [if_neg hn, dropDecided] at heq
      by_cases hfin : F.unaryFinalized (F.unaryRecordPoll snow (agreeing votes d bit).len) = true
      · rw [if_pos hfin] at heq
        obtain ⟨rfl, hdec⟩ := eq_bit_of_dropDecided hdecided (congrArg Prod.fst heq)
        obtain hfin | hfin := (F.unary_finalized_recordPoll _ hok).mp hfin
        · cases hnf.symm.trans hfin
        · rw [← count_agreeing]
          exact ih hchild hfull hf.agreeing hdec (fun _ ↦ hfin) heq
      · rw [if_neg hfin] at heq
        exact absurd (congrArg Prod.snd heq) (by simp)
  | binary snow children ih =>
    have hsound := h
    obtain ⟨hok, hnf, hchildren⟩ := hsound
    rw [poll_binary _ _ _ _ _ rfl] at heq
    set bit := decide (p.alphaPreference.toNat ≤ (agreeing votes d true).len)
    by_cases hn : (agreeing votes d bit).len < p.alphaPreference.toNat
    · rw [if_pos hn] at heq
      exact absurd (congrArg Prod.snd heq) (h.dropDecided_resetAll_ne_leaf (by simp) _)
    · have hα := Nat.not_lt.mp hn
      rw [if_neg hn, dropDecided] at heq
      by_cases hfin : F.binaryFinalized
          (F.binaryRecordPoll snow (agreeing votes d bit).len bit) = true
      · rw [if_pos hfin, F.preference_of_finalized hfin, F.binary_slush_recordPoll _ hok hα, hnf,
          if_neg Bool.false_ne_true, if_pos rfl] at heq
        obtain ⟨hbit, hdec⟩ := eq_bit_of_dropDecided hdecided (congrArg Prod.fst heq)
        obtain hfin | hfin := (F.binary_finalized_recordPoll _ hok hα).mp hfin
        · cases hnf.symm.trans hfin
        · rw [hbit] at heq hdec hfin
          rw [← count_agreeing]
          exact ih _ (hchildren _).2 (hfull _) hf.agreeing hdec (fun _ ↦ hfin) heq
      · rw [if_neg hfin] at heq
        exact absurd (congrArg Prod.snd heq) (by simp)

/-- Dropping decided bits does not touch the last counter of a choice that survives. -/
theorem tail_dropDecided (hne : (t.dropDecided decided).2 ≠ leaf)
    (hid : id.bitsFrom 0 (t.dropDecided decided).1.length = (t.dropDecided decided).1) (c : ℕ) :
    (t.dropDecided decided).2.tail id (t.dropDecided decided).1.length c
      = t.tail id decided.length c := by
  induction t generalizing decided c with
  | leaf => rfl
  | unary bit snow child ih =>
    rw [dropDecided] at hne hid ⊢
    split_ifs at hne hid ⊢
    · rw [tail_congr hne c (F.unaryConfidence snow), ih hne hid, List.length_append,
        List.length_singleton, tail]
    · rfl
  | binary snow children ih =>
    rw [dropDecided] at hne hid ⊢
    split_ifs at hne hid ⊢
    · rw [tail_congr hne c (sideConfidence F snow (id.bit decided.length)), ih _ hne hid,
        List.length_append, List.length_singleton, tail, bit_of_dropDecided hid]
    · rfl

/-! ## Adding a choice -/

theorem Routes.tail_add (hr : t.Routes id d) (id' : Id) (c : ℕ) :
    (t.add p id' d).tail id d c = t.tail id d c := by
  induction t generalizing d c with
  | leaf => rfl
  | unary bit snow child ih =>
    obtain ⟨rfl, hr⟩ := hr
    rw [BitTrie.add]
    split_ifs
    · exact ih hr _
    · simp only [tail, if_true, sideConfidence, F.slush_extend, F.confidence_extend]
  | binary snow children ih =>
    rw [BitTrie.add, tail, tail]
    split_ifs with hbit
    · exact ih _ hr _
    · rfl

/-- A choice that was not there starts with a counter of zero. -/
theorem tail_add_self (hr : ¬ t.Routes id d) (c : ℕ) : (t.add p id d).tail id d c = 0 := by
  induction t generalizing d c with
  | leaf => exact absurd trivial hr
  | unary bit snow child ih =>
    rw [add]
    split_ifs with hbit
    · exact ih (fun hchild ↦ hr ⟨hbit, hchild⟩) _
    · rw [tail, if_neg hbit, sideConfidence, F.slush_extend, if_neg (Ne.symm hbit)]
      exact tail_chain_newUnary _
  | binary snow children ih =>
    rw [add, tail, if_pos rfl]
    exact ih _ hr _

end BitTrie

namespace Node

variable {F : LawfulFactory} {n : Node F} {path : List Bool}

theorem Valid.full_expand (h : n.Valid path) (reset : Bool) :
    (n.expand reset).Full path.length := by
  induction n generalizing path reset with
  | unary preference decidedPrefix commonPrefix snow shouldReset child ih =>
    obtain ⟨⟨hlen, hlt, -⟩, -, -, -, hchild⟩ := h
    rw [Node.expand, BitTrie.full_chain, Id.length_bitsFrom, hlen,
      show decidedPrefix + (commonPrefix - decidedPrefix) = commonPrefix by omega]
    simpa using ih hchild (shouldReset || reset)
  | binary preferences bit snow shouldReset children ih =>
    intro side
    simpa using ih side (h.2 side).2.2 (shouldReset side || reset)
  | empty => exact h

/-- A choice that has its instances down to the last bit is one the node caches. -/
theorem Valid.of_routes {S : Id → Prop} (h : n.Valid path) (hn : n.isSome = true)
    (hS : n.PrefersOnly S) (reset : Bool) {id : Id} (hid : id.bitsFrom 0 path.length = path)
    (hr : (n.expand reset).Routes id path.length) : S id := by
  induction n generalizing path reset with
  | unary preference decidedPrefix commonPrefix snow shouldReset child ih =>
    obtain ⟨⟨hlen, hlt, hle⟩, hpath, -, -, hchild⟩ := h
    rw [Node.expand, BitTrie.routes_chain, Id.length_bitsFrom, hlen,
      show decidedPrefix + (commonPrefix - decidedPrefix) = commonPrefix by omega] at hr
    have hcommon : id.bitsFrom 0 commonPrefix = preference.bitsFrom 0 commonPrefix := by
      rw [bitsFrom_zero_split id hlt.le, bitsFrom_zero_split preference hlt.le, hpath, ← hlen, hid,
        hlen, hr.1]
    obtain hlow | hfull := hchild.length_le.lt_or_eq
    · refine ih hchild (hchild.isSome_iff.mpr hlow) hS.2 (shouldReset || reset) ?_ ?_
      · rw [Id.length_bitsFrom, hcommon]
      · rw [Id.length_bitsFrom]
        exact hr.2
    · rw [Id.length_bitsFrom] at hfull
      obtain rfl : id = preference := Id.eq_of_bitsFrom_eq (by rw [← hfull, hcommon])
      exact hS.1
  | binary preferences bit snow shouldReset children ih =>
    obtain ⟨⟨hlen, hlt⟩, hchildren⟩ := h
    obtain ⟨hpref, -, hchild⟩ := hchildren (id.bit bit)
    have hbits : id.bitsFrom 0 (bit + 1) = path ++ [id.bit bit] := by
      rw [bitsFrom_zero_succ, ← hlen, hid]
    have hlen' : (path ++ [id.bit bit]).length = bit + 1 := by simp [hlen]
    obtain hlow | hfull := hchild.length_le.lt_or_eq
    · refine ih _ hchild (hchild.isSome_iff.mpr hlow) (hS _).2
        (shouldReset (id.bit bit) || reset) ?_ ?_
      · rw [hlen', hbits]
      · rw [hlen] at hr
        rw [hlen']
        exact hr
    · have hpreferred : id = preferences (id.bit bit) :=
        Id.eq_of_bitsFrom_eq (by rw [← hfull, hlen', hbits, hpref])
      rw [hpreferred]
      exact (hS _).1
  | empty => exact absurd hn Bool.false_ne_true

end Node

namespace Tree

open BitTrie

variable {F : LawfulFactory} {t : Tree F} {added : List Id}

/-- Whether `id` has the bits decided so far. -/
def allows (t : Tree F) (id : Id) : Bool :=
  equalSubset 0 t.node.decidedPrefix t.preference id

/-- The consecutive polls counted for `id`; zero once it is decided against. -/
def level (t : Tree F) (id : Id) : ℕ :=
  if t.allows id then (t.node.expand t.shouldReset).tail id t.node.decidedPrefix 0 else 0

/-- The tree is in step with the plain trie and has not decided its last bit. -/
def Undecided (t : Tree F) (added : List Id) : Prop :=
  ∃ r, r.params = t.params ∧ t.Live added r

section Live

variable {r : Reference F}

theorem Live.allows_eq (h : t.Live added r) (id : Id) :
    t.allows id = Reference.agrees r.decided id := h.equalSubset_iff id

theorem Live.level_eq (h : t.Live added r) (id : Id) :
    t.level id
      = if Reference.agrees r.decided id then r.trie.tail id r.decided.length 0 else 0 := by
  rw [level, h.allows_eq, h.trie_eq, h.valid.length]

theorem Live.full (h : t.Live added r) : r.trie.Full r.decided.length := by
  rw [h.trie_eq]
  exact h.valid.full_expand _

theorem Live.trie_ne_leaf (h : t.Live added r) : r.trie ≠ .leaf := by
  intro hleaf
  have hfull := h.full
  rw [hleaf] at hfull
  exact (h.valid.isSome_iff.mp h.isSome).ne hfull


end Live

theorem Refines.live {r : Reference F} (h : t.Refines added r)
    (hf : t.finalized = false) : t.Live added r := by
  rcases h with ⟨-, hlive | ⟨hsettled, -⟩⟩
  · exact hlive
  · cases hf.symm.trans hsettled.finalized

theorem Refines.undecided {r : Reference F} (h : t.Refines added r)
    (hf : t.finalized = false) : t.Undecided added := ⟨r, h.1, h.live hf⟩

theorem Undecided.finalized (h : t.Undecided added) : t.finalized = false :=
  h.elim fun _ hr ↦ hr.2.finalized

theorem Undecided.level_lt (hp : t.params.Verified) (h : t.Undecided added) (id : Id) :
    t.level id < t.params.beta.toNat := by
  obtain ⟨r, -, hlive⟩ := h
  have hβ := hp.bounds.2.2.2
  rw [hlive.level_eq]
  split_ifs
  · exact hlive.sound.tail_lt hβ
  · exact hβ

theorem undecided_new {p : Parameters} (hp : p.Verified) (choice : Id) :
    (Tree.new F p choice).Undecided [choice] ∧
      ∀ id, (Tree.new F p choice).level id = 0 := by
  refine ⟨(refines_new hp choice).undecided (F.finalized_newUnary p), fun id ↦ ?_⟩
  rw [level]
  split_ifs
  · exact tail_chain_newUnary _
  · rfl

theorem Undecided.recordUnsuccessfulPoll (h : t.Undecided added) :
    t.recordUnsuccessfulPoll.Undecided added ∧ ∀ id, t.recordUnsuccessfulPoll.level id = 0 := by
  obtain ⟨r, hparams, hlive⟩ := id h
  refine ⟨Refines.undecided (Refines.recordUnsuccessfulPoll ⟨hparams, Or.inl hlive⟩) h.finalized,
    fun id ↦ ?_⟩
  rw [level]
  split_ifs
  · rw [show t.recordUnsuccessfulPoll.node.expand t.recordUnsuccessfulPoll.shouldReset
      = (t.node.expand false).resetAll from Node.expand_true t.node]
    exact tail_resetAll _ _
  · rfl

/-- Adding a choice leaves the counters of the others alone and starts its own at zero. -/
theorem Undecided.add (hp : t.params.Verified) (h : t.Undecided added) (choice : Id) :
    (t.add choice).Undecided (choice :: added) ∧
      (∀ id, (t.add choice).allows id = t.allows id) ∧
      (∀ id ∈ added, (t.add choice).level id = t.level id) ∧
      (t.PrefersOnly (· ∈ added) → choice ∉ added → (t.add choice).level choice = 0) := by
  obtain ⟨r, hparams, hlive⟩ := h
  have href : t.Refines added r := ⟨hparams, Or.inl hlive⟩
  have href' := href.add hp choice
  have hdecided : (r.add choice).decided = r.decided := by
    rw [Reference.add]
    split_ifs <;> rfl
  have hf : (t.add choice).finalized = false := by
    rw [href'.finalized_eq, Reference.finalized, hdecided, ← Reference.finalized,
      ← href.finalized_eq, hlive.finalized]
  have hlive' := href'.live hf
  refine ⟨href'.undecided hf, fun id ↦ ?_, fun id hid ↦ ?_, fun honly hnot ↦ ?_⟩
  · rw [hlive'.allows_eq, hdecided, hlive.allows_eq]
  · rw [hlive'.level_eq, hlive.level_eq, hdecided]
    by_cases hag : Reference.agrees r.decided id = true
    · have hroutes := hlive.routes id hid (beq_iff_eq.mp hag)
      rw [if_pos hag, if_pos hag, Reference.add]
      split_ifs
      · exact hroutes.tail_add choice 0
      · rfl
    · rw [if_neg hag, if_neg hag]
  · rw [hlive'.level_eq, hdecided]
    by_cases hag : Reference.agrees r.decided choice = true
    · rw [if_pos hag, Reference.add, if_pos hag]
      refine tail_add_self (fun hroutes ↦ hnot ?_) 0
      rw [hlive.trie_eq] at hroutes
      exact hlive.valid.of_routes hlive.isSome honly.1 _ (beq_iff_eq.mp hag) hroutes
    · rw [if_neg hag]

/-- **What a poll does.** It decides the tree only on a choice that has `alphaConfidence` votes and
completes `beta`; otherwise every counter counts the poll or starts again. -/
theorem Undecided.recordPoll_cases (hp : t.params.Verified) (h : t.Undecided added)
    {votes : Bag Id} (hk : votes.len ≤ t.params.k.toNat) (hvotes : ∀ id ∈ votes.items, id ∈ added) :
    ((t.recordPoll votes).1.finalized = true ∧ t.allows (t.recordPoll votes).1.preference = true ∧
        t.params.alphaConfidence.toNat ≤ votes.count (t.recordPoll votes).1.preference ∧
        t.params.beta.toNat ≤ t.level (t.recordPoll votes).1.preference + 1) ∨
      (t.recordPoll votes).1.Undecided added ∧
        ∀ id ∈ added, (t.recordPoll votes).1.allows id = true → t.allows id = true ∧
          (t.recordPoll votes).1.level id
            = if t.params.alphaConfidence.toNat ≤ votes.count id then t.level id + 1 else 0 := by
  obtain ⟨r, hparams, hlive⟩ := h
  have href : t.Refines added r := ⟨hparams, Or.inl hlive⟩
  have href' := href.recordPoll hk hvotes
  set filtered := votes.filter (Reference.agrees r.decided) with hfiltered
  have hklen : filtered.len ≤ t.params.k.toNat := (Bag.len_filter_le _ _).trans hk
  have hfollow {id : Id} (hid : id.bitsFrom 0 r.decided.length = r.decided) :
      Follow filtered id r.decided.length := fun w hw ↦ by
    rw [hid]
    exact beq_iff_eq.mp (List.mem_filter.mp hw).2
  have hcount {id : Id} (hag : Reference.agrees r.decided id = true) :
      filtered.count id = votes.count id := List.count_filter hag
  have hpoll : r.recordPoll votes = { r with
      decided := ((r.trie.poll t.params r.decided.length filtered).dropDecided r.decided).1
      trie := ((r.trie.poll t.params r.decided.length filtered).dropDecided r.decided).2 } := by
    rw [Reference.recordPoll, hparams]
  have hag {id : Id}
      (hid : id.bitsFrom 0 (r.recordPoll votes).decided.length = (r.recordPoll votes).decided) :
      id.bitsFrom 0 r.decided.length = r.decided := by
    exact agrees_of_isPrefix (dropDecided_isPrefix _ _) hid
  rcases hfin : (t.recordPoll votes).1.finalized with - | -
  · right
    have hlive' := href'.live hfin
    refine ⟨href'.undecided hfin, fun id hid hallow ↦ ?_⟩
    rw [hlive'.allows_eq] at hallow
    have hbits' := beq_iff_eq.mp hallow
    have hbits := hag hbits'
    have hagree : Reference.agrees r.decided id = true := beq_iff_eq.mpr hbits
    have hne := hlive'.trie_ne_leaf
    rw [hlive'.level_eq, if_pos hallow, hlive.allows_eq, hlive.level_eq, if_pos hagree,
      ← hcount hagree, ← tail_poll hp hlive.sound hlive.full (hlive.routes id hid hbits) hklen
        (hfollow hbits)]
    rw [hpoll] at hne hbits' ⊢
    have hpolled : r.trie.poll t.params r.decided.length filtered ≠ .leaf := fun hleaf ↦
      hne (by rw [hleaf]; rfl)
    exact ⟨hagree, (tail_dropDecided hne hbits' 0).trans (tail_congr hpolled _ _)⟩
  · left
    rcases href' with ⟨-, hlive' | ⟨-, hdecided', htrie'⟩⟩
    · cases hlive'.finalized.symm.trans hfin
    · set id := (t.recordPoll votes).1.preference
      have hbits : id.bitsFrom 0 r.decided.length = r.decided :=
        hag (by rw [hdecided', Id.length_bitsFrom])
      have hagree : Reference.agrees r.decided id = true := beq_iff_eq.mpr hbits
      rw [hpoll] at hdecided' htrie'
      rw [hlive.level_eq, if_pos hagree, ← hcount hagree, hlive.allows_eq]
      exact ⟨rfl, hagree, hlive.sound.confident_of_dropDecided hlive.full (hfollow hbits) hbits.symm
        (fun hleaf ↦ absurd hleaf hlive.trie_ne_leaf) (Prod.ext hdecided' htrie')⟩

end Tree

end Avalanche
