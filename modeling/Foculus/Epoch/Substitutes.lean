import Foculus.Epoch.Window

namespace Foculus.Epoch

open Data Settlement

/-! # Claims that are substitutes

The settlement ordering is a permutation of positions: another arrival order
visits other claims at the same positions, and of two claims that are
substitutes the one visited first takes the whole value. -/

section Substitutes

variable {base : List Link} {ctx : Tru.unit.Context} {params : Tru.unit.FocusingParams}
  {contribs : List Contribution}

/-- With the unit impulse all links are substitutes: a coalition is worth one
as soon as it has any. -/
theorem value_unit (coalition : List Contribution) :
    value Tru.unit base ctx params coalition =
      if ∀ contrib ∈ coalition, contrib.links = [] then 0 else Fx.one := by
  have nothing : (coalition.flatMap (Contribution.weighted Tru.unit)).isEmpty = true ↔
      ∀ contrib ∈ coalition, contrib.links = [] := by
    simp [Contribution.weighted, List.flatMap_eq_nil_iff]
  change (if (coalition.flatMap (Contribution.weighted Tru.unit)).isEmpty = true then 0
    else Fx.one) = _
  simp only [nothing]

theorem set_of_getElem? {out : List Fx} {i : Nat} {entry : Fx} (held : out[i]? = some entry) :
    out.set i entry = out := by
  apply List.ext_getElem?
  intro j
  rw [List.getElem?_set]
  split_ifs with same bound
  · rw [← same, held]
  · rw [← same, List.getElem?_eq_none (Nat.le_of_not_lt bound)]
  · rfl

/-- Before any link is visited nothing is gained. -/
theorem marginalsFrom_before {before rest : List (Fin contribs.length)}
    {visited : List Contribution} {out : List Fx}
    (idle : ∀ contrib ∈ visited ++ before.map contribs.get, contrib.links = [])
    (zeros : ∀ i ∈ before, out[i.val]? = some 0) :
    marginalsFrom Tru.unit base ctx params contribs (before ++ rest) visited 0 out =
      marginalsFrom Tru.unit base ctx params contribs rest (visited ++ before.map contribs.get) 0
        out := by
  induction before generalizing visited with
  | nil => rw [List.nil_append, List.map_nil, List.append_nil]
  | cons i before ih =>
      rw [List.map_cons, List.append_cons] at idle
      have worthless : value Tru.unit base ctx params (visited ++ [contribs.get i]) = 0 := by
        rw [value_unit, if_pos]
        exact fun contrib member => idle contrib (List.mem_append_left _ member)
      rw [List.cons_append, marginalsFrom, worthless, sub_zero,
        set_of_getElem? (zeros i List.mem_cons_self),
        ih idle fun j member => zeros j (List.mem_cons_of_mem _ member), List.append_assoc]
      rfl

theorem marginalsFrom_after {order : List (Fin contribs.length)} {visited : List Contribution}
    {out : List Fx} (linked : ∃ contrib ∈ visited, contrib.links ≠ [])
    (zeros : ∀ i ∈ order, out[i.val]? = some 0) :
    marginalsFrom Tru.unit base ctx params contribs order visited Fx.one out = out := by
  induction order generalizing visited with
  | nil => rfl
  | cons i rest ih =>
      obtain ⟨contrib, member, links⟩ := linked
      have worth : value Tru.unit base ctx params (visited ++ [contribs.get i]) = Fx.one := by
        rw [value_unit, if_neg]
        exact fun idle => links (idle contrib (List.mem_append_left _ member))
      rw [marginalsFrom, worth, sub_self, set_of_getElem? (zeros i List.mem_cons_self)]
      exact ih ⟨contrib, List.mem_append_left _ member, links⟩
        fun j later => zeros j (List.mem_cons_of_mem _ later)

theorem marginals_unit {before after : List (Fin contribs.length)} {first : Fin contribs.length}
    (distinct : (before ++ first :: after).Nodup)
    (idle : ∀ i ∈ before, (contribs.get i).links = [])
    (linked : (contribs.get first).links ≠ []) :
    marginals Tru.unit base ctx params contribs (before ++ first :: after) =
      (List.replicate contribs.length 0).set first Fx.one := by
  have worth : value Tru.unit base ctx params (before.map contribs.get ++ [contribs.get first]) =
      Fx.one := by
    rw [value_unit, if_neg]
    exact fun none_ => linked (none_ _ (by simp))
  rw [marginals, marginalsFrom_before (by simpa using idle) (by simp), List.nil_append,
    marginalsFrom, worth, sub_zero]
  apply marginalsFrom_after ⟨contribs.get first, by simp, linked⟩
  intro i member
  have apart : first ≠ i := by
    intro same
    subst same
    exact (List.nodup_cons.mp (List.nodup_append.mp distinct).2.1).1 member
  rw [List.getElem?_set_ne (Fin.val_ne_of_ne apart)]
  simp

end Substitutes

def totalOf (neuron : Particle) (shares : List SettledShare) : Nat :=
  (amounts (shares.filter fun settled => settled.neuron == neuron)).sum

theorem totalOf_cons (neuron : Particle) (settled : SettledShare) (rest : List SettledShare) :
    totalOf neuron (settled :: rest) =
      (if settled.neuron = neuron then settled.amount.toNat else 0) + totalOf neuron rest := by
  rw [totalOf, List.filter_cons]
  by_cases same : settled.neuron = neuron
  · simp [same, totalOf]
  · simp [same, totalOf]

theorem totalOf_winner {winner : Particle} {shares : List SettledShare}
    (others : ∀ settled ∈ shares, settled.neuron ≠ winner → settled.amount = 0)
    (neuron : Particle) :
    totalOf neuron shares = if neuron = winner then (amounts shares).sum else 0 := by
  induction shares with
  | nil => simp [totalOf]
  | cons settled rest ih =>
      rw [totalOf_cons, ih fun other member => others other (List.mem_cons_of_mem _ member),
        amounts_cons, List.sum_cons]
      by_cases wins : settled.neuron = winner
      · by_cases same : neuron = winner
        · simp [wins, same]
        · simp [wins, same, Ne.symm same]
      · have zero := others settled List.mem_cons_self wins
        simp [zero]

section Divergence

variable (hemera : Hemera) (zheng : Zheng)

/-- One ticket, all links substitutes, nothing clipped. -/
def substituteWindow : Window ⟨hemera, Tru.unit, Tok.unclipped, zheng⟩ where
  epoch := 1
  prevBeacon := genesisPrev
  budget := 1000
  outerT := testOuterT
  signalVdfs := []
  base := []
  ctx := ()
  params := ()
  policy := { TicketPolicy.default with want := 1, maxAttempts := 1 }

variable {hemera zheng}

theorem substituteWindow_single (wins : EasyTargetWins hemera)
    (complete : Step.Complete zheng) : (substituteWindow hemera zheng).SingleTicket where
  wins := wins
  complete := complete
  delayed := (by decide : testOuterT ≠ 0)
  funded := (by decide : (1000 : UInt64) ≠ 0)
  want_eq := rfl
  maxAttempts_eq := rfl
  settleTarget_eq := rfl
  precise := (by decide +kernel : ClusterAcc.kMin Tru.unit Fx.one Fx.one = 1)

/-- The positions in the order in which the only ticket visits them. -/
def visits (hemera : Hemera) (zheng : Zheng) (ids : List Particle) : List Nat :=
  (ordering hemera ids.length ((substituteWindow hemera zheng).artifact ids).beacon
    (satAdd 0 (lenU64 0))).map Fin.val

theorem visits_perm (hemera : Hemera) (zheng : Zheng) (ids : List Particle) :
    (visits hemera zheng ids).Perm (List.range ids.length) := by
  rw [visits, ← List.map_coe_finRange_eq_range]
  exact (ordering_perm hemera ids.length _ _).map Fin.val

/-- The same positions are visited, whatever claims stand there. -/
theorem visits_eq {left right : List Particle} (permuted : left.Perm right) :
    visits hemera zheng left = visits hemera zheng right := by
  rw [visits, visits, Window.artifact_perm _ permuted, permuted.length_eq]

theorem sample_unit {claims : List RewardClaim} {before after : List Nat} {first : Nat}
    (order : visits hemera zheng (claims.map RewardClaim.id) = before ++ first :: after)
    (idle : ∀ i ∈ before, ∀ claim, claims[i]? = some claim → claim.links = [])
    {winner : RewardClaim} (won : claims[first]? = some winner) (linked : winner.links ≠ []) :
    (substituteWindow hemera zheng).sample claims =
      (List.replicate claims.length 0).set first Fx.one := by
  have positions : (ordering hemera (contributionsWithRho Tru.unit claims).length
      ((substituteWindow hemera zheng).artifact (claims.map RewardClaim.id)).beacon (satAdd 0 (lenU64 0))).map Fin.val =
        before ++ first :: after := by
    rw [contributionsWithRho_length, ← List.length_map RewardClaim.id]
    exact order
  have permuted := ordering_perm hemera (contributionsWithRho Tru.unit claims).length
    ((substituteWindow hemera zheng).artifact (claims.map RewardClaim.id)).beacon (satAdd 0 (lenU64 0))
  have links (i : Fin (contributionsWithRho Tru.unit claims).length) :
      claims[i.val]?.map RewardClaim.links =
        some ((contributionsWithRho Tru.unit claims).get i).links := by
    rw [← List.getElem?_map, ← contributionsWithRho_links Tru.unit, List.getElem?_map,
      List.getElem?_eq_getElem i.isLt]
    rfl
  obtain ⟨earlier, rest, split, earlierEq, restEq⟩ := List.map_eq_append_iff.mp positions
  obtain ⟨here, later, rfl, rfl, laterEq⟩ := List.map_eq_cons_iff.mp restEq
  have distinct : (earlier ++ here :: later).Nodup := by
    rw [← split]
    exact permuted.nodup_iff.mpr (List.nodup_finRange _)
  have idleEarlier : ∀ i ∈ earlier, ((contributionsWithRho Tru.unit claims).get i).links = [] := by
    intro i member
    have found := links i
    obtain ⟨claim, held, same⟩ := Option.map_eq_some_iff.mp found
    rw [← same]
    exact idle i.val (earlierEq ▸ List.mem_map_of_mem member) claim held
  have linkedHere : ((contributionsWithRho Tru.unit claims).get here).links ≠ [] := by
    have found := links here
    rw [won] at found
    exact (Option.some.inj found) ▸ linked
  change marginals Tru.unit [] () () (contributionsWithRho Tru.unit claims) (ordering hemera
    (contributionsWithRho Tru.unit claims).length
    ((substituteWindow hemera zheng).artifact (claims.map RewardClaim.id)).beacon (satAdd 0 (lenU64 0))) = _
  rw [split]
  exact (marginals_unit distinct idleEarlier linkedHere).trans (congrArg
    (fun n => (List.replicate n 0).set here.val Fx.one) (contributionsWithRho_length Tru.unit claims))

theorem sampleShares_unit {claims : List RewardClaim} {first : Nat} {winner : RewardClaim}
    (won : claims[first]? = some winner)
    (sampled : (substituteWindow hemera zheng).sample claims =
      (List.replicate claims.length 0).set first Fx.one) :
    (winner.neuron, Fx.one) ∈ (substituteWindow hemera zheng).sampleShares claims ∧
      ∀ entry ∈ (substituteWindow hemera zheng).sampleShares claims,
        entry.1 ≠ winner.neuron → entry.2 = 0 := by
  have unitOne : Tru.unit.mul Fx.one (Tru.unit.div Fx.one (Tru.unit.fromInt 1)) = Fx.one := by
    decide +kernel
  have unitZero : Tru.unit.mul 0 (Tru.unit.div Fx.one (Tru.unit.fromInt 1)) = 0 := by
    decide +kernel
  have entries (i : Nat) : ((substituteWindow hemera zheng).sampleShares claims)[i]? =
      claims[i]?.map fun claim => (claim.neuron, if first = i then Fx.one else 0) := by
    have whole : ((substituteWindow hemera zheng).sampleShares claims).length = claims.length := by
      simp [Window.sampleShares]
    by_cases inside : i < claims.length
    · rw [List.getElem?_eq_getElem inside, List.getElem?_eq_getElem (whole ▸ inside),
        Option.map_some]
      congr 1
      simp only [Window.sampleShares, sampled, List.getElem_map, List.getElem_zip,
        List.getElem_set, List.getElem_replicate]
      split_ifs
      · exact congrArg (Prod.mk _) unitOne
      · exact congrArg (Prod.mk _) unitZero
    · rw [List.getElem?_eq_none (Nat.le_of_not_lt inside),
        List.getElem?_eq_none (whole ▸ Nat.le_of_not_lt inside), Option.map_none]
  constructor
  · apply List.mem_iff_getElem?.mpr
    exact ⟨first, by rw [entries, won, Option.map_some, if_pos rfl]⟩
  · intro entry member other
    obtain ⟨i, found⟩ := List.mem_iff_getElem?.mp member
    rw [entries] at found
    obtain ⟨claim, here, rfl⟩ := Option.map_eq_some_iff.mp found
    by_cases same : first = i
    · subst same
      rw [won] at here
      cases here
      exact absurd rfl other
    · exact if_neg same

/-- Of substitutes, the claim that is visited first is paid the whole budget. -/
theorem winner_takes_all (wins : EasyTargetWins hemera) (complete : Step.Complete zheng)
    {claims : List RewardClaim} {before after : List Nat} {first : Nat}
    (order : visits hemera zheng (claims.map RewardClaim.id) = before ++ first :: after)
    (idle : ∀ i ∈ before, ∀ claim, claims[i]? = some claim → claim.links = [])
    {winner : RewardClaim} (won : claims[first]? = some winner) (linked : winner.links ≠ []) :
    ∃ runner receipt, (substituteWindow hemera zheng).settled claims = .ok runner ∧
      runner.receipt = some receipt ∧
      ∀ neuron, totalOf neuron receipt.shares = if neuron = winner.neuron then 1000 else 0 := by
  obtain ⟨present, others⟩ := sampleShares_unit won (sample_unit order idle won linked)
  have nonempty : claims ≠ [] := by
    rintro rfl
    cases won
  have clipped : Tok.unclipped.clipShares ((substituteWindow hemera zheng).sampleShares claims)
      (directedTotal Tru.unit [] claims () ()) =
        .ok ((substituteWindow hemera zheng).sampleShares claims) := rfl
  have weighted :
      (weights Tru.unit ((substituteWindow hemera zheng).sampleShares claims)).sum ≠ 0 := by
    have heavy : fxWeight Tru.unit Fx.one ≠ 0 := by decide +kernel
    intro none_
    exact heavy (List.sum_eq_zero_iff.mp none_ _ (List.mem_map_of_mem present))
  have allocated := allocateBudget_eq 1000 clipped weighted
  obtain ⟨runner, receipt, settles, issued, paid⟩ := (substituteWindow hemera zheng).single_settled
    (substituteWindow_single wins complete) nonempty allocated
  refine ⟨runner, receipt, settles, issued, ?_⟩
  have total := allocateBudget_sum allocated
  have pays := allocateBudget_pays clipped allocated
  rw [← paid] at total pays
  have rest : ∀ settled ∈ receipt.shares, settled.neuron ≠ winner.neuron → settled.amount = 0 := by
    intro settled member other
    obtain ⟨entry, inside, pays⟩ := Pays.exists_entry pays member
    apply pays.weightless
    rw [pays.share_eq, others entry inside (pays.neuron_eq ▸ other)]
    decide +kernel
  intro neuron
  rw [totalOf_winner rest neuron, total]
  rfl

def substitute (a b id : Particle) : RewardClaim where
  id := id
  neuron := id
  links := if id = a ∨ id = b then [Tru.unit.stake a b 1] else []
  belief := Fx.one
  prediction := Fx.one

theorem first_difference {arrival other : List Particle} {order : List Nat}
    (covers : order.Perm (List.range arrival.length)) (lengths : arrival.length = other.length)
    (reordered : arrival ≠ other) :
    ∃ before first after, order = before ++ first :: after ∧ first < arrival.length ∧
      arrival[first]? ≠ other[first]? ∧ ∀ i ∈ before, arrival[i]? = other[i]? := by
  have differs : ∃ i ∈ order, arrival[i]? ≠ other[i]? := by
    by_contra same
    push Not at same
    apply reordered
    apply List.ext_getElem?
    intro i
    by_cases inside : i < arrival.length
    · exact same i (covers.mem_iff.mpr (List.mem_range.mpr inside))
    · rw [List.getElem?_eq_none (Nat.le_of_not_lt inside),
        List.getElem?_eq_none (lengths ▸ Nat.le_of_not_lt inside)]
  obtain ⟨i, member, apart⟩ := differs
  cases found : order.find? fun i => arrival[i]? ≠ other[i]? with
  | none => exact absurd (List.find?_eq_none.mp found i member) (by simpa using apart)
  | some first =>
      obtain ⟨here, before, after, split, earlier⟩ := List.find?_eq_some_iff_append.mp found
      have inside : first < arrival.length := by
        apply List.mem_range.mp
        apply covers.mem_iff.mp
        rw [split]
        simp
      exact ⟨before, first, after, split, inside, by simpa using here, by simpa using earlier⟩

theorem substitute_wins (wins : EasyTargetWins hemera) (complete : Step.Complete zheng)
    {a b winner : Particle} {ids : List Particle} {before after : List Nat} {first : Nat}
    (order : visits hemera zheng ids = before ++ first :: after)
    (here : ids[first]? = some winner) (linked : winner = a ∨ winner = b)
    (earlier : ∀ i ∈ before, ids[i]? ≠ some a ∧ ids[i]? ≠ some b) :
    ∃ runner receipt,
      (substituteWindow hemera zheng).settled (ids.map (substitute a b)) = .ok runner ∧
      runner.receipt = some receipt ∧
      ∀ neuron, totalOf neuron receipt.shares = if neuron = winner then 1000 else 0 := by
  have unchanged : (ids.map (substitute a b)).map RewardClaim.id = ids := by
    rw [List.map_map]
    exact List.map_id ids
  have won : (ids.map (substitute a b))[first]? = some (substitute a b winner) := by
    rw [List.getElem?_map, here, Option.map_some]
  have links : (substitute a b winner).links ≠ [] := by
    rw [substitute, if_pos linked]
    exact List.cons_ne_nil _ _
  apply winner_takes_all wins complete (unchanged.symm ▸ order) ?_ won links
  intro i member claim held
  rw [List.getElem?_map] at held
  obtain ⟨id, found, rfl⟩ := Option.map_eq_some_iff.mp held
  have neither : ¬ (id = a ∨ id = b) := by
    intro either
    rcases either with rfl | rfl
    · exact (earlier i member).1 found
    · exact (earlier i member).2 found
  exact if_neg neither

/-- For any two different arrival orders there are claims that are paid
differently. -/
theorem orders_diverge (wins : EasyTargetWins hemera) (complete : Step.Complete zheng)
    {arrival other : List Particle} (distinct : arrival.Nodup) (permuted : arrival.Perm other)
    (reordered : arrival ≠ other) :
    ∃ (claimOf : Particle → RewardClaim) (left right : EpochRunner zheng)
      (leftReceipt rightReceipt : SettleReceipt zheng) (neuron : Particle),
      (∀ id, (claimOf id).id = id) ∧
      (substituteWindow hemera zheng).settled (arrival.map claimOf) = .ok left ∧
      (substituteWindow hemera zheng).settled (other.map claimOf) = .ok right ∧
      left.receipt = some leftReceipt ∧ right.receipt = some rightReceipt ∧
      totalOf neuron leftReceipt.shares ≠ totalOf neuron rightReceipt.shares := by
  have covers := visits_perm hemera zheng arrival
  obtain ⟨before, first, after, split, inside, apart, agree⟩ :=
    first_difference covers permuted.length_eq reordered
  have otherInside : first < other.length := permuted.length_eq ▸ inside
  have otherDistinct : other.Nodup := permuted.nodup_iff.mp distinct
  have passed : ∀ i ∈ before, first ≠ i := by
    have once := covers.nodup_iff.mpr List.nodup_range
    rw [split] at once
    exact fun i member same => (List.nodup_append.mp once).2.2 i member first (by simp) same.symm
  have here := List.getElem?_eq_getElem inside
  have otherHere := List.getElem?_eq_getElem otherInside
  rw [here, otherHere, Ne, Option.some.injEq] at apart
  generalize arrival[first] = a at here apart
  generalize other[first] = b at otherHere apart
  have earlier (i : Nat) (member : i ∈ before) : arrival[i]? ≠ some a ∧ arrival[i]? ≠ some b := by
    constructor
    · rw [← here]
      exact fun same => passed i member ((List.getElem?_inj inside distinct).mp same.symm)
    · rw [agree i member, ← otherHere]
      exact fun same => passed i member ((List.getElem?_inj otherInside otherDistinct).mp same.symm)
  obtain ⟨left, leftReceipt, leftSettles, leftIssued, leftPaid⟩ :=
    substitute_wins wins complete split here (.inl rfl) earlier
  obtain ⟨right, rightReceipt, rightSettles, rightIssued, rightPaid⟩ :=
    substitute_wins wins complete ((visits_eq permuted).symm.trans split) otherHere (.inr rfl)
      fun i member => agree i member ▸ earlier i member
  refine ⟨substitute a b, left, right, leftReceipt, rightReceipt, a, fun _ => rfl, leftSettles,
    rightSettles, leftIssued, rightIssued, ?_⟩
  rw [leftPaid, rightPaid, if_pos rfl, if_neg apart]
  decide

end Divergence

end Foculus.Epoch
