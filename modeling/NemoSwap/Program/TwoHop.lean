import NemoSwap.Pool.Market
import NemoSwap.Pool.SwapCost
import NemoSwap.Program.Runs

set_option relaxedAutoImplicit false
set_option autoImplicit false

/-!
# Two-hop swaps

A two-hop swap computes its legs one after the other, and the amount of the second is a result of
the first. The leg computed second may stop at its own price limit before it has taken (or given)
that amount: then the trader keeps (or adds) the difference of the intermediate token. This is so
exactly when the pool of that leg has no room for what the other leg passes on, which the arguments
and the pools before the trade decide.

## Main definitions

* `NemoSwap.TwoHopArgs.Fits` — the pool of the leg computed second has room for what the other leg
  passes on.
* `NemoSwap.PassesThrough` — the trade leaves the intermediate token alone and keeps to the
  threshold.

## Main results

* `NemoSwap.TwoHop.passesThrough_iff` — a two-hop swap passes the intermediate token through in
  full iff it fits.
* `NemoSwap.Program.twoHop_passesThrough_iff` — so it is in every run.
* `NemoSwap.Program.twoHop_leftover` — a two-hop swap that leaves intermediate tokens with the
  trader.
-/

namespace NemoSwap

/-! ## Payments -/

/-- A swap moves its amounts into one vault and out of the other.

**Proof sketch.** By the direction, the two transfers are one into and one out of a vault. -/
theorem updateAndSwapWhirlpool_vault {pool pool' : Pool} {update : PostSwapUpdate}
    {sequence : SwapTickSequence} {aToB : Bool} {timestamp : ℕ} {funds : OwnerFunds}
    (h : pool.updateAndSwapWhirlpool update sequence aToB timestamp funds = .ok pool') :
    pool'.vault (tokenIn aToB) = pool.vault (tokenIn aToB) + update.amountIn aToB ∧
      pool'.vault (tokenOut aToB) + update.amountOut aToB = pool.vault (tokenOut aToB) := by
  unfold Pool.updateAndSwapWhirlpool at h
  rw [Pool.storeSequence_eq] at h
  cases aToB with
  | true =>
    simp only [if_true, Res.bind_eq_ok, Res.pure_eq_ok, Except.ok.injEq] at h
    obtain ⟨a, ha, b, hb, rfl⟩ := h
    obtain ⟨ha, -⟩ := Pool.transferFromOwnerToVault_eq_ok ha
    have hb := Pool.transferFromVaultToOwner_eq_ok hb
    exact ⟨ha, hb⟩
  | false =>
    simp only [Bool.false_eq_true, if_false, Res.bind_eq_ok, Res.pure_eq_ok, Except.ok.injEq] at h
    obtain ⟨b, hb, a, ha, rfl⟩ := h
    obtain ⟨hb, -⟩ := Pool.transferFromOwnerToVault_eq_ok hb
    have ha := Pool.transferFromVaultToOwner_eq_ok ha
    exact ⟨hb, ha⟩

/-! ## The legs -/

/-- The trade leaves the intermediate token alone, and keeps to the threshold. -/
structure PassesThrough (args : TwoHopArgs) (one two one' two' : Pool) : Prop where
  /-- What vault one pays out of the intermediate token, vault two receives. -/
  intermediate : one.vault (tokenOut args.aToBOne) + two.vault (tokenIn args.aToBTwo) =
    one'.vault (tokenOut args.aToBOne) + two'.vault (tokenIn args.aToBTwo)
  costs_le : args.amountSpecifiedIsInput = false →
    one'.vault (tokenIn args.aToBOne) ≤
      one.vault (tokenIn args.aToBOne) + args.otherAmountThreshold.toNat
  le_returns : args.amountSpecifiedIsInput = true →
    two'.vault (tokenOut args.aToBTwo) + args.otherAmountThreshold.toNat ≤
      two.vault (tokenOut args.aToBTwo)

/-- **The pool of the leg computed second has room for what the other leg passes on**, in terms of
the arguments and of the pools before the trade. If the input is specified, no move of the price of
pool one that the amount pays for yields more than pool two has room for. If the output is
specified, some move of the price of pool two, as far as the leg must go, costs no more than pool
one has room for. -/
def TwoHopArgs.Fits (args : TwoHopArgs) (one two : Pool) : Prop :=
  if args.amountSpecifiedIsInput then
    ∀ q paid received, one.Moves (args.legOne args.amount) q paid received →
      paid ≤ args.amount.toNat → two.HasRoom (args.legTwo args.amount) received
  else
    ∃ q paid received, two.Moves (args.legTwo args.amount) q paid received ∧
      two.Settles (args.legTwo args.amount) q received ∧
      one.HasRoom (args.legOne args.amount) paid

/-- The threshold of a two-hop swap bounds what it costs or what it returns. -/
lemma checkTwoHopThreshold_eq_ok {args : TwoHopArgs} {updateOne updateTwo : PostSwapUpdate}
    (h : checkTwoHopThreshold args updateOne updateTwo = .ok ()) :
    (args.amountSpecifiedIsInput = false →
        updateOne.amountIn args.aToBOne ≤ args.otherAmountThreshold.toNat) ∧
      (args.amountSpecifiedIsInput = true →
        args.otherAmountThreshold.toNat ≤ updateTwo.amountOut args.aToBTwo) := by
  unfold checkTwoHopThreshold at h
  cases hin : args.amountSpecifiedIsInput with
  | true =>
    rw [if_pos hin] at h
    dsimp only at h
    rw [ite_err_eq_ok] at h
    exact ⟨fun hf => absurd hf (by simp), fun _ => not_lt.1 h.1⟩
  | false =>
    rw [if_neg (by simp [hin])] at h
    dsimp only at h
    rw [ite_err_eq_ok] at h
    exact ⟨fun _ => not_lt.1 h.1, fun hf => absurd hf (by simp)⟩

/-- **A two-hop swap passes the intermediate token through in full iff it fits.**

**Proof sketch.** The vaults agree on the intermediate token exactly if the leg computed second
exchanges all of the amount that the other leg passes on, so if its pool has room for this amount.
The amount is the largest that a move paid for by the specified input yields, or the least that a
move for the specified output costs. -/
theorem TwoHop.passesThrough_iff {one two one' two' : Pool} {args : TwoHopArgs} {timestamp : ℕ}
    {updateOne updateTwo : PostSwapUpdate} {sequenceOne sequenceTwo : SwapTickSequence}
    (hone : Reachable one) (htwo : Reachable two)
    (h : TwoHop one two args timestamp updateOne updateTwo sequenceOne sequenceTwo one' two') :
    PassesThrough args one two one' two' ↔ args.Fits one two := by
  obtain ⟨hinOne, houtOne⟩ := updateAndSwapWhirlpool_vault h.payOne
  obtain ⟨hinTwo, houtTwo⟩ := updateAndSwapWhirlpool_vault h.payTwo
  obtain ⟨hcosts, hreturns⟩ := checkTwoHopThreshold_eq_ok h.threshold
  have hsame : PassesThrough args one two one' two' ↔
      updateOne.amountOut args.aToBOne = updateTwo.amountIn args.aToBTwo := by
    constructor
    · intro hp
      have := hp.intermediate
      omega
    · intro he
      refine ⟨by omega, fun hin => ?_, fun hin => ?_⟩
      · have := hcosts hin
        omega
      · have := hreturns hin
        omega
  rw [hsame]
  have hltOne : updateOne.amountOut args.aToBOne < 2 ^ 64 := (hone.computeSwapUpdate_lt h.legOne).2
  have hltTwo : updateTwo.amountIn args.aToBTwo < 2 ^ 64 := (htwo.computeSwapUpdate_lt h.legTwo).1
  have hlegOne := h.legOne
  have hlegTwo := h.legTwo
  unfold TwoHopArgs.amountOne at hlegOne
  unfold TwoHopArgs.amountTwo at hlegTwo
  unfold TwoHopArgs.Fits
  cases hin : args.amountSpecifiedIsInput with
  | true =>
    -- the leg in pool two is computed second
    rw [if_pos hin] at hlegOne hlegTwo
    have hroom : updateTwo.specified args.amountSpecifiedIsInput args.aToBTwo =
        (UInt64.ofNat (updateOne.amountOut args.aToBOne)).toNat ↔
          two.HasRoom (args.legTwo args.amount)
            (UInt64.ofNat (updateOne.amountOut args.aToBOne)).toNat := htwo.specified_eq_iff hlegTwo
    rw [UInt64.toNat_ofNat_of_lt' hltOne, hin] at hroom
    have hout : ∀ {A}, updateOne.amountOut args.aToBOne ≤ A ↔ ∀ q paid received,
        one.Moves (args.legOne args.amount) q paid received → paid ≤ args.amount.toNat →
          received ≤ A := hone.amountOut_le_iff hlegOne hin
    rw [if_pos rfl, eq_comm]
    refine hroom.trans ⟨fun h q paid received hmoves hpaid c x hc => ?_, fun h c x hc => ?_⟩
    · exact hout.1 (h c x hc) q paid received hmoves hpaid
    · exact hout.2 fun q paid received hmoves hpaid => h q paid received hmoves hpaid c x hc
  | false =>
    -- the leg in pool one is computed second
    rw [if_neg (by simp [hin])] at hlegOne hlegTwo
    have hroom : updateOne.specified args.amountSpecifiedIsInput args.aToBOne =
        (UInt64.ofNat (updateTwo.amountIn args.aToBTwo)).toNat ↔
          one.HasRoom (args.legOne args.amount)
            (UInt64.ofNat (updateTwo.amountIn args.aToBTwo)).toNat := hone.specified_eq_iff hlegOne
    rw [UInt64.toNat_ofNat_of_lt' hltTwo, hin] at hroom
    have hcost : ∀ {A}, updateTwo.amountIn args.aToBTwo ≤ A ↔ ∃ q paid received,
        two.Moves (args.legTwo args.amount) q paid received ∧
          two.Settles (args.legTwo args.amount) q received ∧ paid ≤ A :=
      htwo.amountIn_le_iff hlegTwo hin
    rw [if_neg (by simp)]
    refine hroom.trans ⟨fun h => ?_, ?_⟩
    · obtain ⟨q, paid, received, hmoves, hsettles, hle⟩ := hcost.1 le_rfl
      exact ⟨q, paid, received, hmoves, hsettles, fun c x hc => hle.trans (h c x hc)⟩
    · rintro ⟨q, paid, received, hmoves, hsettles, hfits⟩ c x hc
      exact hcost.2 ⟨q, paid, received, hmoves, hsettles, hfits c x hc⟩

/-! ## Runs -/

namespace Program

/-- A pool with a tick spacing of zero has no tick arrays. -/
def NoArrays (key : PoolKey) (program : Program) : Prop :=
  ∀ pool, program.pools key = some pool → pool.whirlpool.seeds = key ∧ ∀ s, pool.tickArrays s = none

/-- No instruction gives a tick array to a pool with a tick spacing of zero.

**Proof sketch.** By the inversion of the instruction for the pool: a new pool has no arrays, and no
step in a pool of spacing zero creates one. The spacing of the pool is that of its key, since its
seeds are kept. -/
theorem step_noArrays {program program' : Program} {instruction : Instruction} {key : PoolKey}
    (hkey : key.tickSpacing = 0) (h : NoArrays key program)
    (hstep : program.step instruction = .ok program') : NoArrays key program' := by
  have hpool : ∀ {pool pool' : Pool} {op : PoolOp}, program.pools key = some pool →
      pool.step op = .ok pool' → pool'.whirlpool.seeds = key ∧ ∀ s, pool'.tickArrays s = none := by
    intro pool pool' op hp hs
    obtain ⟨hseeds, hnone⟩ := h pool hp
    have h0 : pool.whirlpool.tickSpacing = 0 :=
      (congrArg PoolKey.tickSpacing hseeds).trans hkey
    exact ⟨(Pool.step_seeds hs).trans hseeds, Pool.step_noArrays h0 hnone hs⟩
  intro pool hp
  have hcases := step_poolStep hstep key
  rw [hp] at hcases
  generalize hres : some pool = res at hcases
  cases hcases with
  | other _ => exact h pool hres.symm
  | created _ _ _ _ _ hw =>
    cases hres
    exact ⟨(Whirlpool.initializeWhirlpool_seeds hw).1, fun _ => rfl⟩
  | onPool hp' _ hs =>
    cases hres
    exact hpool hp' hs
  | legOne hp' hs =>
    cases hres
    exact hpool hp' hs
  | legTwo hp' hs =>
    cases hres
    exact hpool hp' hs

/-- A pool in which a swap has succeeded has a tick spacing of at least one. -/
lemma run_reachable_of_swap (instructions : List Instruction) {key : PoolKey} {pool : Pool}
    (hpool : (empty.run instructions).pools key = some pool) {args : Pool.SwapArgs}
    {timestamp : ℕ} {result : PostSwapUpdate × SwapTickSequence}
    (hswap : pool.computeSwapUpdate args timestamp = .ok result) : Reachable pool := by
  rcases eq_or_ne key.tickSpacing 0 with h0 | hne
  · have hrun : NoArrays key (empty.run instructions) := run_induction (NoArrays key)
      (fun _ _ _ h hstep => step_noArrays h0 h hstep) instructions empty fun _ hp => by cases hp
    exact absurd hswap (Pool.computeSwapUpdate_none (hrun pool hpool).2 _ _ _)
  · exact run_reachable instructions key hne hpool

/-- **In every run, a two-hop swap that succeeds passes the intermediate token through in full,
within the threshold, iff it fits.** -/
theorem twoHop_passesThrough_iff (instructions : List Instruction) {one two : PoolKey}
    {args : TwoHopArgs} {program' : Program} {poolOne poolTwo poolOne' poolTwo' : Pool}
    (hone : (empty.run instructions).pools one = some poolOne)
    (htwo : (empty.run instructions).pools two = some poolTwo)
    (hstep : (empty.run instructions).step (.twoHopSwap one two args) = .ok program')
    (hone' : program'.pools one = some poolOne') (htwo' : program'.pools two = some poolTwo') :
    PassesThrough args poolOne poolTwo poolOne' poolTwo' ↔ args.Fits poolOne poolTwo := by
  obtain ⟨p1, p2, q1, q2, h1, h2, hne, hswap, rfl⟩ := twoHopSwap_eq_ok hstep
  rw [hone, Option.some.injEq] at h1
  rw [htwo, Option.some.injEq] at h2
  subst h1 h2
  rw [setPool_of_ne _ hne, setPool_self, Option.some.injEq] at hone'
  rw [setPool_self, Option.some.injEq] at htwo'
  subst hone' htwo'
  obtain ⟨_, _, _, _, _, hhop⟩ := NemoSwap.twoHopSwap_eq_ok hswap
  exact hhop.passesThrough_iff (run_reachable_of_swap instructions hone hhop.legOne)
    (run_reachable_of_swap instructions htwo hhop.legTwo)

/-- An instruction that succeeds leads to the next state. -/
lemma step_eq_next {program : Program} {instruction : Instruction}
    (h : (program.step instruction).map (fun _ => ()) = .ok ()) :
    program.step instruction = .ok (program.next instruction) := by
  obtain ⟨program', hstep, -⟩ := Res.map_eq_ok.1 h
  rw [hstep, next_eq_of_ok hstep]

/-- The sample hop fits: its price limits do not bind. -/
theorem twoHop_passesThrough_iff_sampleHop :
    ∃ poolOne poolTwo, (empty.run sampleInstructions).pools sampleKeyOne = some poolOne ∧
      (empty.run sampleInstructions).pools sampleKeyTwo = some poolTwo ∧
      sampleHop.Fits poolOne poolTwo := by
  have hone : ((empty.run sampleInstructions).pools sampleKeyOne).map (fun p => (p.vaultA, p.vaultB)) =
      some (6379246, 6379246) := by decide +kernel
  have htwo : ((empty.run sampleInstructions).pools sampleKeyTwo).map (fun p => (p.vaultA, p.vaultB)) =
      some (6379246, 6379246) := by decide +kernel
  have hok : ((empty.run sampleInstructions).step
      (.twoHopSwap sampleKeyOne sampleKeyTwo sampleHop)).map (fun _ => ()) = .ok () := by
    decide +kernel
  have hone' : (((empty.run sampleInstructions).next
      (.twoHopSwap sampleKeyOne sampleKeyTwo sampleHop)).pools sampleKeyOne).map
        (fun p => (p.vaultA, p.vaultB)) = some (6479246, 6279556) := by decide +kernel
  have htwo' : (((empty.run sampleInstructions).next
      (.twoHopSwap sampleKeyOne sampleKeyTwo sampleHop)).pools sampleKeyTwo).map
        (fun p => (p.vaultA, p.vaultB)) = some (6478936, 6279866) := by decide +kernel
  obtain ⟨poolOne, h1, hv1⟩ := Option.map_eq_some_iff.1 hone
  obtain ⟨poolTwo, h2, hv2⟩ := Option.map_eq_some_iff.1 htwo
  obtain ⟨poolOne', h1', hv1'⟩ := Option.map_eq_some_iff.1 hone'
  obtain ⟨poolTwo', h2', hv2'⟩ := Option.map_eq_some_iff.1 htwo'
  rw [Prod.mk.injEq] at hv1 hv2 hv1' hv2'
  refine ⟨poolOne, poolTwo, h1, h2, (twoHop_passesThrough_iff sampleInstructions h1 h2
    (step_eq_next hok) h1' h2').1 ⟨?_, fun h => absurd h (by decide), fun _ => ?_⟩⟩
  · change poolOne.vaultB + poolTwo.vaultA = poolOne'.vaultB + poolTwo'.vaultA
    omega
  · change poolTwo'.vaultB + 0 ≤ poolTwo.vaultB
    omega

/-- The sample hop with a price limit in pool two that is reached. -/
def sampleHopLimited : TwoHopArgs :=
  { sampleHop with sqrtPriceLimitTwo := 18446000000000000000 }

/-- **A two-hop swap that leaves intermediate tokens with the trader**: pool one pays out 99690 of
them, and pool two takes in 40460. -/
theorem twoHop_leftover :
    ∃ poolOne poolTwo poolOne' poolTwo' program',
      (empty.run sampleInstructions).pools sampleKeyOne = some poolOne ∧
      (empty.run sampleInstructions).pools sampleKeyTwo = some poolTwo ∧
      (empty.run sampleInstructions).step
        (.twoHopSwap sampleKeyOne sampleKeyTwo sampleHopLimited) = .ok program' ∧
      program'.pools sampleKeyOne = some poolOne' ∧ program'.pools sampleKeyTwo = some poolTwo' ∧
      poolOne.vaultB = poolOne'.vaultB + 99690 ∧ poolTwo'.vaultA = poolTwo.vaultA + 40460 ∧
      ¬PassesThrough sampleHopLimited poolOne poolTwo poolOne' poolTwo' := by
  have hone : ((empty.run sampleInstructions).pools sampleKeyOne).map (fun p => p.vaultB) =
      some 6379246 := by decide +kernel
  have htwo : ((empty.run sampleInstructions).pools sampleKeyTwo).map (fun p => p.vaultA) =
      some 6379246 := by decide +kernel
  have hok : ((empty.run sampleInstructions).step
      (.twoHopSwap sampleKeyOne sampleKeyTwo sampleHopLimited)).map (fun _ => ()) = .ok () := by
    decide +kernel
  have hone' : (((empty.run sampleInstructions).next
      (.twoHopSwap sampleKeyOne sampleKeyTwo sampleHopLimited)).pools sampleKeyOne).map
        (fun p => p.vaultB) = some 6279556 := by decide +kernel
  have htwo' : (((empty.run sampleInstructions).next
      (.twoHopSwap sampleKeyOne sampleKeyTwo sampleHopLimited)).pools sampleKeyTwo).map
        (fun p => p.vaultA) = some 6419706 := by decide +kernel
  obtain ⟨poolOne, h1, hv1⟩ := Option.map_eq_some_iff.1 hone
  obtain ⟨poolTwo, h2, hv2⟩ := Option.map_eq_some_iff.1 htwo
  obtain ⟨poolOne', h1', hv1'⟩ := Option.map_eq_some_iff.1 hone'
  obtain ⟨poolTwo', h2', hv2'⟩ := Option.map_eq_some_iff.1 htwo'
  refine ⟨poolOne, poolTwo, poolOne', poolTwo', _, h1, h2, step_eq_next hok, h1', h2', by omega,
    by omega, fun hp => ?_⟩
  have hmid : poolOne.vaultB + poolTwo.vaultA = poolOne'.vaultB + poolTwo'.vaultA :=
    hp.intermediate
  omega

end Program

end NemoSwap
