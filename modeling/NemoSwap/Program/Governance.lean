import NemoSwap.Pool.Solvency
import NemoSwap.Program.FeeTiers

set_option relaxedAutoImplicit false
set_option autoImplicit false

/-!
# What needs an authority

The settings of a config, of its fee tiers and of its pools are changed by instructions that an
authority has to sign: one of the four of the config, or the authority of a reward. Trading and
changing liquidity need none of them, and leave all settings as they are. So whatever everyone else
does, in whichever order, the settings stay, no fee tier is added, and what the protocol is owed is
not collected.

## Main definitions

* `NemoSwap.PoolOp.administers`, `NemoSwap.Instruction.administrator` — the instructions that an
  authority has to sign, and its signature.
* `NemoSwap.WhirlpoolsConfig.Authority` — the authorities of a config.
* `NemoSwap.Whirlpool.settings` — what only authorities set.

## Main results

* `NemoSwap.Pool.step_settings` — an instruction without an authority keeps the settings.
* `NemoSwap.Program.governed` — a run without the authorities of a config.
-/

namespace NemoSwap

/-! ## Settings -/

/-- What only authorities set in a pool: its rates, its flag and its rewards. -/
structure Settings where
  seeds : PoolKey
  isEnabled : Bool
  feeRate : ℕ
  protocolFeeRate : ℕ
  /-- The mint, the vault, the authority and the emissions of the rewards. -/
  rewards : Fin numRewards → Pubkey × Pubkey × Pubkey × ℕ

/-- The mint, the vault, the authority and the emissions of a reward. -/
def WhirlpoolRewardInfo.settings (info : WhirlpoolRewardInfo) : Pubkey × Pubkey × Pubkey × ℕ :=
  (info.mint, info.vault, info.authority, info.emissionsPerSecondX64)

/-- The settings of a pool. -/
def Whirlpool.settings (w : Whirlpool) : Settings :=
  ⟨w.seeds, w.isEnabled, w.feeRate, w.protocolFeeRate, fun i => (w.rewardInfos i).settings⟩

/-- The settings of a pool are its seeds, its flag, its rates and the settings of its rewards. -/
lemma Whirlpool.settings_congr {w w' : Whirlpool} (hseeds : w'.seeds = w.seeds)
    (hflag : w'.isEnabled = w.isEnabled) (hfee : w'.feeRate = w.feeRate)
    (hprotocol : w'.protocolFeeRate = w.protocolFeeRate)
    (hrewards : ∀ i, (w'.rewardInfos i).settings = (w.rewardInfos i).settings) :
    w'.settings = w.settings := by
  unfold settings
  rw [hseeds, hflag, hfee, hprotocol, funext hrewards]

/-- The instructions on a pool that an authority has to sign. -/
def PoolOp.administers : PoolOp → Bool
  | .setFeeRate _ => true
  | .setProtocolFeeRate _ => true
  | .setEnableFlag _ => true
  | .collectProtocolFees _ => true
  | .initializeReward .. => true
  | .setRewardEmissions .. => true
  | .setRewardAuthority .. => true
  | _ => false

/-- Accruing rewards keeps their settings. -/
theorem nextWhirlpoolRewardInfos_settings {w : Whirlpool} {timestamp : ℕ}
    {infos : Fin numRewards → WhirlpoolRewardInfo}
    (h : nextWhirlpoolRewardInfos w timestamp = .ok infos) (i : Fin numRewards) :
    (infos i).settings = (w.rewardInfos i).settings := by
  unfold nextWhirlpoolRewardInfos at h
  simp only at h
  rw [ite_err_eq_ok] at h
  obtain ⟨-, h⟩ := h
  split_ifs at h with hz
  · obtain rfl := Except.ok.inj h
    rfl
  · obtain rfl := Except.ok.inj h
    dsimp only
    split_ifs
    · rfl
    · rfl

namespace Pool

variable {pool pool' : Pool} {earned : Earnings} {op : PoolOp}

/-- The record of a pool after an instruction that neither accrues nor needs an authority.

**Proof sketch.** One case for each of these instructions; what they store is not in the record. -/
lemma whirlpool_of_quiet (hadmin : op.administers = false) (hclock : op.clock = none)
    (h : pool.step op = .ok pool') : pool'.whirlpool = pool.whirlpool := by
  cases op with
  | openPosition key mint lo hi =>
    change pool.openPosition key mint lo hi = .ok pool' at h
    unfold openPosition at h
    rw [ite_error_eq_ok] at h
    simp only [Res.bind_eq_ok, Res.pure_eq_ok, Except.ok.injEq] at h
    obtain ⟨-, _, -, _, -, rfl⟩ := h
    rfl
  | closePosition key auth =>
    obtain ⟨_, -, -, -, -, rfl⟩ := closePosition_eq_ok.1 h
    rfl
  | collectFees key auth funds =>
    change pool.collectFees key auth funds = .ok pool' at h
    unfold collectFees at h
    simp only [Res.bind_eq_ok, Res.pure_eq_ok, Except.ok.injEq] at h
    obtain ⟨_, -, _, -, _, -, rfl⟩ := h
    rfl
  | collectReward key auth index vault owner =>
    change pool.collectReward key auth index vault owner = .ok pool' at h
    unfold collectReward at h
    rw [Res.bind_eq_ok] at h
    obtain ⟨position, -, h⟩ := h
    split_ifs at h
    simp only [Res.bind_eq_ok, Res.pure_eq_ok, Except.ok.injEq] at h
    obtain ⟨_, -, rfl⟩ := h
    rfl
  | initializeTickArray start =>
    change pool.initializeTickArray start = .ok pool' at h
    unfold initializeTickArray at h
    rw [ite_error_eq_ok] at h
    simp only [Res.bind_eq_ok, Res.pure_eq_ok, Except.ok.injEq] at h
    obtain ⟨-, _, -, rfl⟩ := h
    rfl
  | increaseLiquidity => cases hclock
  | decreaseLiquidity => cases hclock
  | updateFeesAndRewards => cases hclock
  | swap => cases hclock
  | twoHopLeg => cases hclock
  | _ => cases hadmin

/-- **Without an authority the settings of a pool are kept**, and what the protocol is owed does
not fall.

**Proof sketch.** By the effect of the instruction. A quiet one that needs no authority keeps the
record; an update and a trade change the rewards only in their growth, and a trade adds to what the
protocol is owed. -/
theorem step_settings (hs : pool.Sound earned) (hb : pool.Backed earned)
    (hadmin : op.administers = false) (h : pool.step op = .ok pool') :
    pool'.whirlpool.settings = pool.whirlpool.settings ∧
      ∀ X, pool.whirlpool.protocolFeeOwed X ≤ pool'.whirlpool.protocolFeeOwed X := by
  rcases step_effect hs hb h with ⟨hclock, -, -, -⟩ | ⟨clock, -, -, hclock, -, hupd, htrade, -, -⟩ |
    ⟨-, key, infos, timestamp, delta, -, -, -, -, hu⟩ | ⟨-, args, infos, timestamp, t, -, -, -, -, htr⟩
  · rw [whirlpool_of_quiet hadmin hclock h]
    exact ⟨rfl, fun X => le_rfl⟩
  · -- the emissions of a reward are set by its authority
    cases op with
    | setRewardEmissions => cases hadmin
    | increaseLiquidity => cases hupd
    | decreaseLiquidity => cases hupd
    | updateFeesAndRewards => cases hupd
    | swap => cases htrade
    | twoHopLeg => cases htrade
    | _ => cases hclock
  · rw [hu.resized.whirlpool]
    refine ⟨Whirlpool.settings_congr rfl rfl rfl rfl
      (nextWhirlpoolRewardInfos_settings hu.rewards), fun X => ?_⟩
    cases X
    · exact le_rfl
    · exact le_rfl
  · constructor
    · have hrewards := nextWhirlpoolRewardInfos_settings htr.rewards
      rw [htr.whirlpool]
      cases args.aToB with
      | true => exact Whirlpool.settings_congr rfl rfl rfl rfl hrewards
      | false => exact Whirlpool.settings_congr rfl rfl rfl rfl hrewards
    · intro X
      rw [(htr.protocolFeeOwed_add hs hb X).1]
      exact Nat.le_add_right _ _

end Pool

/-! ## Authorities -/

/-- The signature of an authority, where an instruction needs one. -/
def Instruction.administrator : Instruction → Option Pubkey
  | .setFeeAuthority _ signer _ => some signer
  | .setCollectProtocolFeesAuthority _ signer _ => some signer
  | .setRewardEmissionsSuperAuthority _ signer _ => some signer
  | .setPoolCreatorAuthority _ signer _ => some signer
  | .setDefaultProtocolFeeRate _ signer _ => some signer
  | .initializeFeeTier _ signer _ _ => some signer
  | .setDefaultFeeRate _ signer _ _ => some signer
  | .onPool _ signer op => if op.administers then some signer else none
  | _ => none

/-- One of the four authorities of a config. -/
def WhirlpoolsConfig.Authority (config : WhirlpoolsConfig) (signer : Pubkey) : Prop :=
  signer = config.feeAuthority ∨ signer = config.collectProtocolFeesAuthority ∨
    signer = config.rewardEmissionsSuperAuthority ∨ signer = config.poolCreatorAuthority

namespace Program

variable {program program' : Program} {config : Pubkey} {account : WhirlpoolsConfig}
  {instruction : Instruction}

/-- An administrative instruction on a pool is signed by an authority.

**Proof sketch.** One case for each administrative instruction, by the check of its signer. -/
lemma authority_of_administers {w : Whirlpool} {signer : Pubkey} {op : PoolOp}
    (hadmin : op.administers = true) (h : authorized account w signer op = true) :
    account.Authority signer ∨ ∃ i, signer = (w.rewardInfos i).authority := by
  have hreward : ∀ index, some signer = rewardAuthority w index →
      ∃ i, signer = (w.rewardInfos i).authority := fun index h => by
    unfold rewardAuthority at h
    split_ifs at h with hi
    exact ⟨_, Option.some.inj h⟩
  cases op with
  | setFeeRate => exact .inl (.inl (of_decide_eq_true h))
  | setProtocolFeeRate => exact .inl (.inl (of_decide_eq_true h))
  | setEnableFlag => exact .inl (.inr (.inr (.inr (of_decide_eq_true h))))
  | collectProtocolFees => exact .inl (.inr (.inl (of_decide_eq_true h)))
  | initializeReward => exact .inr (hreward _ (of_decide_eq_true h))
  | setRewardEmissions => exact .inr (hreward _ (of_decide_eq_true h))
  | setRewardAuthority =>
    rcases Bool.or_eq_true_iff.1 h with h | h
    · exact .inr (hreward _ (of_decide_eq_true h))
    · exact .inl (.inr (.inr (.inl (of_decide_eq_true h))))
  | _ => cases hadmin

/-! ## One instruction -/

/-- All other configs stay. -/
lemma setConfig_of_ne {k : Pubkey} (account : WhirlpoolsConfig) (h : k ≠ config) :
    (program.setConfig config account).configs k = program.configs k :=
  Function.update_of_ne h _ _

/-- A config is changed by one of its authorities only. -/
lemma updateConfig_configs {k signer : Pubkey} {authority : WhirlpoolsConfig → Pubkey}
    {f : WhirlpoolsConfig → Res WhirlpoolsConfig} (hconfig : program.configs config = some account)
    (hno : signer ≠ authority account)
    (h : program.updateConfig k signer authority f = .ok program') :
    program'.configs config = some account := by
  obtain ⟨account₁, account', haccount, hs, -, rfl⟩ := updateConfig_eq_ok h
  have hne : config ≠ k := by
    rintro rfl
    rw [hconfig, Option.some.injEq] at haccount
    exact hno (haccount ▸ hs)
  rw [setConfig_of_ne _ hne, hconfig]

/-- **Without its authorities a config is kept.**

**Proof sketch.** One case for each instruction. Those that update a config ask for one of its
authorities, and a config that exists cannot be initialized again. -/
theorem step_config (hconfig : program.configs config = some account)
    (hno : ∀ signer, instruction.administrator = some signer → ¬account.Authority signer)
    (h : program.step instruction = .ok program') : program'.configs config = some account := by
  cases instruction with
  | initializeConfig k =>
    obtain ⟨hnew, account', -, rfl⟩ := initializeConfig_eq_ok h
    have hne : config ≠ k := by
      rintro rfl
      rw [hconfig] at hnew
      cases hnew
    rw [setConfig_of_ne _ hne, hconfig]
  | setFeeAuthority k signer =>
    exact updateConfig_configs hconfig (fun he => hno signer rfl (.inl he)) h
  | setCollectProtocolFeesAuthority k signer =>
    exact updateConfig_configs hconfig (fun he => hno signer rfl (.inr (.inl he))) h
  | setRewardEmissionsSuperAuthority k signer =>
    exact updateConfig_configs hconfig (fun he => hno signer rfl (.inr (.inr (.inl he)))) h
  | setPoolCreatorAuthority k signer =>
    exact updateConfig_configs hconfig (fun he => hno signer rfl (.inr (.inr (.inr he)))) h
  | setDefaultProtocolFeeRate k signer =>
    exact updateConfig_configs hconfig (fun he => hno signer rfl (.inl he)) h
  | initializeFeeTier =>
    obtain ⟨_, -, -, -, -, rfl⟩ := initializeFeeTier_eq_ok h
    exact hconfig
  | setDefaultFeeRate =>
    obtain ⟨_, _, -, -, -, -, -, rfl⟩ := setDefaultFeeRate_eq_ok h
    exact hconfig
  | initializePool =>
    obtain ⟨_, _, _, -, -, -, -, -, rfl⟩ := initializePool_eq_ok h
    exact hconfig
  | onPool =>
    obtain ⟨_, _, _, -, -, -, -, rfl⟩ := onPool_eq_ok h
    exact hconfig
  | twoHopSwap =>
    obtain ⟨_, _, _, _, -, -, -, -, rfl⟩ := twoHopSwap_eq_ok h
    exact hconfig

/-- **Without the authorities of a config its fee tiers are kept**, and none is added.

**Proof sketch.** By the effect of the instruction on the fee tier: it is opened or rated by the fee
authority of its config, or it is another one. -/
theorem step_feeTiers (hconfig : program.configs config = some account)
    (hno : ∀ signer, instruction.administrator = some signer → ¬account.Authority signer)
    (htiers : ∀ key tier, program.feeTiers key = some tier →
      tier.whirlpoolsConfig = key.whirlpoolsConfig)
    (h : program.step instruction = .ok program') {key : FeeTierKey}
    (hkey : key.whirlpoolsConfig = config) : program'.feeTiers key = program.feeTiers key := by
  have hcases := step_feeTierStep h key
  generalize hres : program'.feeTiers key = res at hcases
  cases hcases with
  | other => rfl
  | opened _ haccount =>
    rw [hkey, hconfig, Option.some.injEq] at haccount
    exact absurd (.inl (haccount ▸ rfl)) (hno _ rfl)
  | @rated k signer rate tier htier =>
    obtain ⟨account', tier', haccount, hs, htier', hk, -, -⟩ := setDefaultFeeRate_eq_ok h
    have hof := htiers key tier' htier'
    rw [hk, hkey] at hof
    subst hof
    rw [hconfig, Option.some.injEq] at haccount
    exact absurd (.inl (haccount ▸ hs)) (hno signer rfl)

/-- **Without the authorities of its config and of its rewards a pool keeps its settings**, and
what the protocol is owed does not fall.

**Proof sketch.** By the inversion of the instruction for the pool. An instruction that administers
the pool has been signed by an authority of its config or of its rewards; the others keep the
settings by `step_settings`. -/
theorem step_pool (hconfig : program.configs config = some account)
    (hno : ∀ signer, instruction.administrator = some signer → ¬account.Authority signer)
    {key : PoolKey} {pool : Pool} (hpool : program.pools key = some pool) (hr : Reachable pool)
    (hof : pool.whirlpool.whirlpoolsConfig = config)
    (hrewards : ∀ signer, instruction.administrator = some signer →
      ∀ i, signer ≠ (pool.whirlpool.rewardInfos i).authority)
    (h : program.step instruction = .ok program') :
    ∃ pool', program'.pools key = some pool' ∧ Reachable pool' ∧
      pool'.whirlpool.settings = pool.whirlpool.settings ∧
      ∀ X, pool.whirlpool.protocolFeeOwed X ≤ pool'.whirlpool.protocolFeeOwed X := by
  have hstep : ∀ {op : PoolOp} {pool' : Pool}, op.administers = false →
      pool.step op = .ok pool' → Reachable pool' ∧
        pool'.whirlpool.settings = pool.whirlpool.settings ∧
        ∀ X, pool.whirlpool.protocolFeeOwed X ≤ pool'.whirlpool.protocolFeeOwed X :=
    fun {op pool'} hadmin hs => by
      obtain ⟨s, rfl, hinv⟩ := hr.invariant
      exact ⟨hr.step hs, Pool.step_settings hinv.sound hinv.backed hadmin hs⟩
  have hcases := step_poolStep h key
  generalize hres : program'.pools key = res at hcases
  cases hcases with
  | other => exact ⟨pool, hpool, hr, rfl, fun X => le_rfl⟩
  | created _ hnew =>
    rw [hpool] at hnew
    cases hnew
  | @onPool p pool' signer op hp _ hs =>
    rw [hpool, Option.some.injEq] at hp
    subst hp
    obtain ⟨p, -, account', hp, haccount, hauth, -, -⟩ := onPool_eq_ok h
    rw [hpool, Option.some.injEq] at hp
    subst hp
    rw [hof, hconfig, Option.some.injEq] at haccount
    subst haccount
    refine ⟨pool', rfl, hstep ?_ hs⟩
    by_contra htrue
    rw [Bool.not_eq_false] at htrue
    have hsigner : (Instruction.onPool key signer op).administrator = some signer := if_pos htrue
    rcases authority_of_administers htrue hauth with ha | ⟨i, ha⟩
    · exact hno signer hsigner ha
    · exact hrewards signer hsigner i ha
  | legOne hp hs =>
    rw [hpool, Option.some.injEq] at hp
    subst hp
    exact ⟨_, rfl, hstep rfl hs⟩
  | legTwo hp hs =>
    rw [hpool, Option.some.injEq] at hp
    subst hp
    exact ⟨_, rfl, hstep rfl hs⟩

/-! ## Runs -/

/-- A run in two parts. -/
lemma run_append (before after : List Instruction) :
    program.run (before ++ after) = (program.run before).run after := List.foldl_append

/-- A pool has the seeds of its address.

**Proof sketch.** Induction on the run. A pool is created with the seeds of its address, and no step
of a pool changes its seeds. -/
theorem run_seeds (instructions : List Instruction) (key : PoolKey) :
    ∀ pool, (empty.run instructions).pools key = some pool → pool.whirlpool.seeds = key := by
  refine run_induction (fun p => ∀ pool, p.pools key = some pool → pool.whirlpool.seeds = key)
    (fun program program' instruction hprogram hstep pool hpool => ?_) instructions empty
    (fun pool hpool => by cases hpool)
  have hcases := step_poolStep hstep key
  rw [hpool] at hcases
  generalize hres : some pool = res at hcases
  cases hcases with
  | other _ => exact hprogram pool hres.symm
  | created _ _ _ _ _ hw =>
    cases hres
    exact (Whirlpool.initializeWhirlpool_seeds hw).1
  | onPool hp _ hs =>
    cases hres
    exact (Pool.step_seeds hs).trans (hprogram _ hp)
  | legOne hp hs =>
    cases hres
    exact (Pool.step_seeds hs).trans (hprogram _ hp)
  | legTwo hp hs =>
    cases hres
    exact (Pool.step_seeds hs).trans (hprogram _ hp)

/-- A config in a run without its authorities. -/
lemma run_config (instructions : List Instruction)
    (hconfig : program.configs config = some account)
    (hno : ∀ i ∈ instructions, ∀ signer, i.administrator = some signer →
      ¬account.Authority signer) :
    (program.run instructions).configs config = some account := by
  induction instructions generalizing program with
  | nil => exact hconfig
  | cons instruction rest ih =>
    rw [List.forall_mem_cons] at hno
    rw [run_cons]
    cases hs : program.step instruction with
    | error e =>
      rw [next_eq_of_error hs]
      exact ih hconfig hno.2
    | ok program' =>
      rw [next_eq_of_ok hs]
      exact ih (step_config hconfig hno.1 hs) hno.2

/-- The fee tiers of a config in a run without its authorities.

**Proof sketch.** Induction on the run from its end, with `step_feeTiers` for the last instruction;
the authorities of the config stay by `run_config`. -/
lemma run_feeTiers (before after : List Instruction)
    (hconfig : (empty.run before).configs config = some account)
    (hno : ∀ i ∈ after, ∀ signer, i.administrator = some signer → ¬account.Authority signer)
    {key : FeeTierKey} (hkey : key.whirlpoolsConfig = config) :
    ((empty.run before).run after).feeTiers key = (empty.run before).feeTiers key := by
  induction after using List.reverseRecOn with
  | nil => rfl
  | append_singleton after instruction ih =>
    rw [List.forall_mem_append] at hno
    rw [run_concat]
    cases hs : ((empty.run before).run after).step instruction with
    | error e =>
      rw [next_eq_of_error hs]
      exact ih hno.1
    | ok program' =>
      rw [next_eq_of_ok hs, ← ih hno.1]
      refine step_feeTiers (run_config after hconfig hno.1) (hno.2 _ (List.mem_singleton_self _))
        (fun key tier htier => ?_) hs hkey
      rw [← run_append] at htier
      exact (feeTier_opened _ htier).1

/-- A pool in a run without the authorities of its config and of its rewards.

**Proof sketch.** Induction on the run, with the step lemma for the first instruction; the seeds and
the authorities of the rewards are settings, so the hypotheses hold again after it. -/
theorem run_pool (instructions : List Instruction) {key : PoolKey} {pool : Pool}
    (hconfig : program.configs config = some account)
    (hno : ∀ i ∈ instructions, ∀ signer, i.administrator = some signer →
      ¬account.Authority signer ∧ ∀ j, signer ≠ (pool.whirlpool.rewardInfos j).authority)
    (hpool : program.pools key = some pool) (hr : Reachable pool)
    (hof : pool.whirlpool.whirlpoolsConfig = config) :
    ∃ pool', (program.run instructions).pools key = some pool' ∧
      pool'.whirlpool.settings = pool.whirlpool.settings ∧
      ∀ X, pool.whirlpool.protocolFeeOwed X ≤ pool'.whirlpool.protocolFeeOwed X := by
  induction instructions generalizing program pool with
  | nil => exact ⟨pool, hpool, rfl, fun X => le_rfl⟩
  | cons instruction rest ih =>
    rw [List.forall_mem_cons] at hno
    rw [run_cons]
    cases hs : program.step instruction with
    | error e =>
      rw [next_eq_of_error hs]
      exact ih hconfig hno.2 hpool hr hof
    | ok program' =>
      rw [next_eq_of_ok hs]
      have hno₁ : ∀ signer, instruction.administrator = some signer →
          ¬account.Authority signer := fun signer h => (hno.1 signer h).1
      obtain ⟨pool₁, hpool₁, hr₁, hsettings, hle⟩ := step_pool hconfig hno₁ hpool hr hof
        (fun signer h => (hno.1 signer h).2) hs
      have hauthority : ∀ j, (pool₁.whirlpool.rewardInfos j).authority =
          (pool.whirlpool.rewardInfos j).authority := fun j =>
        congrArg (fun t => (t.rewards j).2.2.1) hsettings
      obtain ⟨pool₂, hpool₂, hsettings₂, hle₂⟩ := ih (step_config hconfig hno₁ hs)
        (fun i hi signer h => ⟨(hno.2 i hi signer h).1, fun j => by
          rw [hauthority]
          exact (hno.2 i hi signer h).2 j⟩) hpool₁ hr₁
        ((congrArg (fun t => t.seeds.whirlpoolsConfig) hsettings).trans hof)
      exact ⟨pool₂, hpool₂, hsettings₂.trans hsettings, fun X => (hle X).trans (hle₂ X)⟩

/-- **A run without the authorities of a config.** Whatever is run after a config was created, as
long as none of its four authorities signs an administrative instruction: the config keeps its
authorities and its rate, none of its fee tiers changes or is added, and a pool whose reward
authorities sign none either keeps its rates, its flag and its rewards, while what the protocol is
owed in it does not fall. -/
theorem governed (before after : List Instruction)
    (hconfig : (empty.run before).configs config = some account)
    (hno : ∀ i ∈ after, ∀ signer, i.administrator = some signer → ¬account.Authority signer) :
    ((empty.run before).run after).configs config = some account ∧
      (∀ key : FeeTierKey, key.whirlpoolsConfig = config →
        ((empty.run before).run after).feeTiers key = (empty.run before).feeTiers key) ∧
      ∀ (key : PoolKey) (pool : Pool), (empty.run before).pools key = some pool →
        key.whirlpoolsConfig = config → key.tickSpacing ≠ 0 →
        (∀ i ∈ after, ∀ signer, i.administrator = some signer →
          ∀ j, signer ≠ (pool.whirlpool.rewardInfos j).authority) →
        ∃ pool', ((empty.run before).run after).pools key = some pool' ∧
          pool'.whirlpool.settings = pool.whirlpool.settings ∧
          ∀ X, pool.whirlpool.protocolFeeOwed X ≤ pool'.whirlpool.protocolFeeOwed X := by
  refine ⟨run_config after hconfig hno, fun key hkey => run_feeTiers before after hconfig hno hkey,
    fun key pool hpool hof hspacing hrewards => ?_⟩
  exact run_pool after hconfig (fun i hi signer h => ⟨hno i hi signer h, hrewards i hi signer h⟩)
    hpool (run_reachable before key hspacing hpool)
    ((congrArg PoolKey.whirlpoolsConfig (run_seeds before key pool hpool)).trans hof)

/-- A trader swaps, and tries to set the fee rate, to become the fee authority and to take the
protocol's fees. -/
def sampleAttempts : List Instruction :=
  [.onPool sampleKeyOne 3 sampleSwap, .onPool sampleKeyOne 3 (.setFeeRate 100),
    .setFeeAuthority 1 3 3, .onPool sampleKeyOne 3 (.collectProtocolFees sampleFunds),
    .initializeFeeTier 1 3 8 100]

/-- The attempts fail, and the protocol is owed a part of the fee of the swap. -/
theorem governed_sampleAttempts :
    ((empty.run sampleInstructions).run sampleAttempts).configs 1 = some ⟨10, 11, 12, 13, 300⟩ ∧
      ∃ pool pool', (empty.run sampleInstructions).pools sampleKeyOne = some pool ∧
        ((empty.run sampleInstructions).run sampleAttempts).pools sampleKeyOne = some pool' ∧
        pool'.whirlpool.settings = pool.whirlpool.settings ∧
        (pool.whirlpool.protocolFeeOwedA, pool'.whirlpool.protocolFeeOwedA) = (0, 9) := by
  have hbefore : ((empty.run sampleInstructions).pools sampleKeyOne).map
      (fun p => (p.whirlpool.protocolFeeOwedA, fun j => (p.whirlpool.rewardInfos j).authority)) =
        some (0, fun _ => 12) := by decide +kernel
  have hafter : (((empty.run sampleInstructions).run sampleAttempts).pools sampleKeyOne).map
      (fun p => p.whirlpool.protocolFeeOwedA) = some 9 := by decide +kernel
  obtain ⟨pool, hpool, hp⟩ := Option.map_eq_some_iff.1 hbefore
  obtain ⟨pool', hpool', hp'⟩ := Option.map_eq_some_iff.1 hafter
  rw [Prod.mk.injEq] at hp
  have hsigner : ∀ i ∈ sampleAttempts, ∀ signer, i.administrator = some signer → signer = 3 := by
    intro i hi signer h
    simp only [sampleAttempts, List.mem_cons, List.not_mem_nil, or_false] at hi
    rcases hi with rfl | rfl | rfl | rfl | rfl
    · cases h
    · exact (Option.some.inj h).symm
    · exact (Option.some.inj h).symm
    · exact (Option.some.inj h).symm
    · exact (Option.some.inj h).symm
  obtain ⟨hconfig, -, hpools⟩ := governed sampleInstructions sampleAttempts
    (show (empty.run sampleInstructions).configs 1 = some ⟨10, 11, 12, 13, 300⟩ by decide +kernel)
    fun i hi signer h => by
      rw [hsigner i hi signer h]
      unfold WhirlpoolsConfig.Authority
      decide
  obtain ⟨pool₁, hpool₁, hsettings, -⟩ := hpools sampleKeyOne pool hpool rfl (by decide)
    fun i hi signer h j => by
      rw [hsigner i hi signer h, congrFun hp.2 j]
      decide
  rw [hpool', Option.some.injEq] at hpool₁
  subst hpool₁
  exact ⟨hconfig, pool, pool', hpool, hpool', hsettings, by rw [hp.1, hp']⟩

end Program

end NemoSwap
