import NemoSwap.Pool.Market
import NemoSwap.Program.Runs

set_option relaxedAutoImplicit false
set_option autoImplicit false

/-!
# Disabled pools

While a pool is disabled, `swap` and the instructions on positions and liquidity fail in it, and
all other instructions leave its market alone. The exception is `two_hop_swap`, which does not ask
whether its pools are enabled: one that passes the checks of its handler goes on to swap in them.

## Main definitions

* `NemoSwap.Instruction.setsFlagOf`, `NemoSwap.Instruction.tradesIn` — instructions by what they
  do with a pool.
* `NemoSwap.Program.hopsThrough` — a `two_hop_swap` through a pool that passes the checks before
  its calls of `swap`.

## Main results

* `NemoSwap.Program.disabled_frozen` — a disabled pool is frozen, as long as no `two_hop_swap`
  through it passes these checks.
* `NemoSwap.Program.disabled_moved` — a `two_hop_swap` moves the price of a disabled pool.
-/

namespace NemoSwap

namespace Instruction

/-- A `set_enable_flag` on the pool. -/
def setsFlagOf (key : PoolKey) : Instruction → Bool
  | .onPool k _ (.setEnableFlag _) => decide (k = key)
  | _ => false

/-- An instruction that trades in the pool, or changes its positions or their liquidity. -/
def tradesIn (key : PoolKey) : Instruction → Bool
  | .onPool k _ op => decide (k = key) && op.trades
  | .twoHopSwap one two _ => decide (one = key) || decide (two = key)
  | _ => false

end Instruction

/-- An instruction that leaves the accounts of a pool alone does not trade in it. -/
lemma tradesIn_eq_false {key : PoolKey} {instruction : Instruction}
    (h : instruction.writes key = false) : instruction.tradesIn key = false := by
  cases instruction with
  | onPool k signer op =>
    have hne : ¬k = key := fun he => of_decide_eq_false h he.symm
    simp [Instruction.tradesIn, hne]
  | twoHopSwap one two args =>
    simp only [Instruction.writes, Bool.or_eq_false_iff, decide_eq_false_iff_not] at h
    simp [Instruction.tradesIn, Ne.symm h.1, Ne.symm h.2]
  | _ => rfl

namespace Program

variable {program program' : Program} {key : PoolKey} {pool : Pool} {instruction : Instruction}

/-! ## Two-hop swaps -/

/-- The checks of the `two_hop_swap` handler on its clock and its mints: the clock is not negative,
and pool two takes in the token that pool one pays out. -/
def hopChecks (one two : Whirlpool) (args : TwoHopArgs) : Bool :=
  (toTimestampU64 args.clock).isOk &&
    decide ((if args.aToBOne then one.tokenMintB else one.tokenMintA) =
      if args.aToBTwo then two.tokenMintA else two.tokenMintB)

/-- A `two_hop_swap` with the pool as one of its legs that passes the checks of its handler before
the calls of `swap`: its pools exist and are different, and `hopChecks` holds of them. -/
def hopsThrough (program : Program) (key : PoolKey) : Instruction → Bool
  | .twoHopSwap one two args =>
    (decide (one = key) || decide (two = key)) && decide (one ≠ two) &&
      match program.pools one, program.pools two with
      | some poolOne, some poolTwo => hopChecks poolOne.whirlpool poolTwo.whirlpool args
      | _, _ => false
  | _ => false

/-- A `two_hop_swap` through the pool that succeeds has passed the checks of its handler. -/
lemma hopsThrough_of_step {one two : PoolKey} {args : TwoHopArgs} (hkey : one = key ∨ two = key)
    (h : program.step (.twoHopSwap one two args) = .ok program') :
    program.hopsThrough key (.twoHopSwap one two args) = true := by
  obtain ⟨poolOne, poolTwo, _, _, h1, h2, hne, hswap, -⟩ := twoHopSwap_eq_ok h
  obtain ⟨_, _, _, _, _, hhop⟩ := NemoSwap.twoHopSwap_eq_ok hswap
  have hchecks : hopChecks poolOne.whirlpool poolTwo.whirlpool args = true := by
    simp [hopChecks, hhop.clock, hhop.mints, Except.isOk, Except.toBool]
  simp [hopsThrough, h1, h2, hchecks, hne, hkey]

/-! ## Frozen markets -/

/-- A disabled pool with a given market. -/
def FrozenAt (program : Program) (key : PoolKey) (market : Market) : Prop :=
  ∃ pool, program.pools key = some pool ∧ pool.market = market ∧ pool.whirlpool.isEnabled = false

variable {market : Market}

/-- **What an instruction does to a disabled pool.** If it succeeds, it is no trade in the pool and
keeps the market, unless it is a `two_hop_swap` through the pool or sets its flag.

**Proof sketch.** By the inversion of the instruction for the pool. An instruction on the pool that
trades asks for the flag first, and any other one keeps the market; a successful `two_hop_swap` has
passed the checks of its handler, which the hypothesis excludes. -/
theorem FrozenAt.step (h : program.FrozenAt key market) (hflag : instruction.setsFlagOf key = false)
    (hhop : program.hopsThrough key instruction = false)
    (hstep : program.step instruction = .ok program') :
    instruction.tradesIn key = false ∧ program'.FrozenAt key market := by
  obtain ⟨pool, hpool, hmarket, hdis⟩ := h
  have hcases := step_poolStep hstep key
  generalize hres : program'.pools key = res at hcases
  cases hcases with
  | other huntouched =>
    exact ⟨tradesIn_eq_false huntouched, pool, hres.trans hpool, hmarket, hdis⟩
  | created _ hnew =>
    rw [hpool] at hnew
    cases hnew
  | @onPool _ pool' signer op hp hnoLeg hs =>
    rw [hpool, Option.some.injEq] at hp
    subst hp
    have htrades : op.trades = false := by
      by_contra htrue
      exact Pool.step_disabled hdis (Bool.not_eq_false _ ▸ htrue) hnoLeg hs
    have hnoFlag : ∀ b, op ≠ .setEnableFlag b := by
      rintro b rfl
      simp [Instruction.setsFlagOf] at hflag
    have hkept := Pool.step_kept htrades hnoFlag hs
    refine ⟨by simp [Instruction.tradesIn, htrades], pool', hres, ?_, ?_⟩
    · rw [hkept.market, hmarket]
    · rw [hkept.isEnabled, hdis]
  | legOne =>
    rw [hopsThrough_of_step (.inl rfl) hstep] at hhop
    cases hhop
  | legTwo =>
    rw [hopsThrough_of_step (.inr rfl) hstep] at hhop
    cases hhop

/-- A disabled pool stays as it is along a run.

**Proof sketch.** Induction on the run, with `FrozenAt.step` for its first instruction; one that
fails changes nothing. -/
theorem FrozenAt.run (instructions : List Instruction) (h : program.FrozenAt key market)
    (hflag : ∀ instruction ∈ instructions, instruction.setsFlagOf key = false)
    (hhop : ∀ before instruction after, instructions = before ++ instruction :: after →
      (program.run before).hopsThrough key instruction = false) :
    (program.run instructions).FrozenAt key market := by
  induction instructions generalizing program with
  | nil => exact h
  | cons instruction rest ih =>
    rw [List.forall_mem_cons] at hflag
    rw [forall_split_cons] at hhop
    rw [run_cons]
    apply ih _ hflag.2
    · intro before next after he
      rw [← run_cons]
      exact hhop.2 before next after he
    · cases hs : program.step instruction with
      | error e => rwa [next_eq_of_error hs]
      | ok program' =>
        rw [next_eq_of_ok hs]
        exact (h.step hflag.1 hhop.1 hs).2

/-- **A disabled pool is frozen** along every run in which no `two_hop_swap` through it passes the
checks of its handler: its market does not change, and every instruction that trades in it fails.

**Proof sketch.** The market is kept along the part of the run before any instruction, so that
instruction meets a disabled pool, where a trade that succeeds would contradict the step lemma. -/
theorem disabled_frozen (hpool : program.pools key = some pool)
    (hdis : pool.whirlpool.isEnabled = false) (instructions : List Instruction)
    (hflag : ∀ instruction ∈ instructions, instruction.setsFlagOf key = false)
    (hhop : ∀ before instruction after, instructions = before ++ instruction :: after →
      (program.run before).hopsThrough key instruction = false) :
    (∀ before after, instructions = before ++ after →
      ∃ pool', (program.run before).pools key = some pool' ∧ pool'.market = pool.market ∧
        pool'.whirlpool.isEnabled = false) ∧
    ∀ before instruction after, instructions = before ++ instruction :: after →
      instruction.tradesIn key = true → ∃ e, (program.run before).step instruction = .error e := by
  have hfrozen : ∀ before after, instructions = before ++ after →
      (program.run before).FrozenAt key pool.market := by
    rintro before after rfl
    rw [List.forall_mem_append] at hflag
    apply FrozenAt.run before ⟨pool, hpool, rfl, hdis⟩ hflag.1
    rintro earlier instruction later rfl
    apply hhop earlier instruction (later ++ after)
    rw [List.append_assoc, List.cons_append]
  refine ⟨hfrozen, ?_⟩
  intro before instruction after he htrades
  have hmem : instruction ∈ instructions := by simp [he]
  cases hs : (program.run before).step instruction with
  | error e => exact ⟨e, rfl⟩
  | ok program' =>
    have hno := ((hfrozen before _ he).step (hflag _ hmem) (hhop _ _ _ he) hs).1
    rw [hno] at htrades
    cases htrades

/-- The sample run, after which pool one is disabled. -/
def sampleDisabled : Program :=
  empty.run (sampleInstructions ++ [.onPool sampleKeyOne 13 (.setEnableFlag false)])

/-- A two-hop swap whose second leg takes in another token than its first leg pays out. -/
def sampleHopAstray : TwoHopArgs := { sampleHop with aToBTwo := false }

/-- A swap in the disabled pool, a two-hop swap between tokens that do not meet, and a new fee
rate. -/
def sampleFrozen : List Instruction :=
  [.onPool sampleKeyOne 3 sampleSwap, .twoHopSwap sampleKeyOne sampleKeyTwo sampleHopAstray,
    .onPool sampleKeyOne 10 (.setFeeRate 100)]

/-- The swap and the two-hop swap in the disabled pool fail, its fee rate is set, and its market
stays. -/
theorem disabled_frozen_sampleDisabled :
    ∃ pool pool', sampleDisabled.pools sampleKeyOne = some pool ∧
      (sampleDisabled.run sampleFrozen).pools sampleKeyOne = some pool' ∧
      pool'.whirlpool.feeRate = 100 ∧ pool'.market = pool.market := by
  have hbefore : (sampleDisabled.pools sampleKeyOne).map (fun p => p.whirlpool.isEnabled) =
      some false := by decide +kernel
  have hafter : ((sampleDisabled.run sampleFrozen).pools sampleKeyOne).map
      (fun p => p.whirlpool.feeRate) = some 100 := by decide +kernel
  obtain ⟨pool, hpool, hdis⟩ := Option.map_eq_some_iff.1 hbefore
  obtain ⟨pool', hpool', hrate⟩ := Option.map_eq_some_iff.1 hafter
  have hhop : ∀ before instruction after, sampleFrozen = before ++ instruction :: after →
      (sampleDisabled.run before).hopsThrough sampleKeyOne instruction = false := by
    simp only [sampleFrozen, forall_split_cons, forall_split_nil, and_true]
    decide +kernel
  obtain ⟨hfrozen, -⟩ := disabled_frozen hpool hdis sampleFrozen (by decide) hhop
  obtain ⟨_, he, hmarket, -⟩ := hfrozen _ [] (List.append_nil _).symm
  rw [hpool', Option.some.injEq] at he
  subst he
  exact ⟨pool, pool', hpool, hpool', hrate, hmarket⟩

/-- **A `two_hop_swap` moves the price of a disabled pool.** -/
theorem disabled_moved :
    ∃ pool pool', sampleDisabled.pools sampleKeyOne = some pool ∧
      pool.whirlpool.isEnabled = false ∧
      (sampleDisabled.run [.twoHopSwap sampleKeyOne sampleKeyTwo sampleHop]).pools sampleKeyOne =
        some pool' ∧
      pool'.whirlpool.isEnabled = false ∧ pool.whirlpool.sqrtPrice = 18446744073709551616 ∧
      pool'.whirlpool.sqrtPrice = 18444905116669419675 := by
  have hbefore : (sampleDisabled.pools sampleKeyOne).map
      (fun p => (p.whirlpool.isEnabled, p.whirlpool.sqrtPrice)) =
        some (false, 18446744073709551616) := by decide +kernel
  have hafter : ((sampleDisabled.run [.twoHopSwap sampleKeyOne sampleKeyTwo sampleHop]).pools
      sampleKeyOne).map (fun p => (p.whirlpool.isEnabled, p.whirlpool.sqrtPrice)) =
        some (false, 18444905116669419675) := by decide +kernel
  obtain ⟨pool, hpool, hp⟩ := Option.map_eq_some_iff.1 hbefore
  obtain ⟨pool', hpool', hp'⟩ := Option.map_eq_some_iff.1 hafter
  rw [Prod.mk.injEq] at hp hp'
  exact ⟨pool, pool', hpool, hp.1, hpool', hp'.1, hp.2, hp'.2⟩

end Program

end NemoSwap
