import Catalyst.Library.Doubles
import Catalyst.Usage.Model
import Mathlib.Algebra.Order.Floor.Semiring
import Mathlib.Algebra.Order.Round
import Mathlib.Algebra.Order.Ring.Rat

/-!
# What a call costs and what it reserves

A rate card has prices for a million tokens, so tokens times a price are micros. Before a call
is sent, admission reserves the most it can cost: all the input at the highest input price of
its model, all the output at the highest output price. After it ended, its cost is settled from
what was used: each part at its own price.

A price is the number the rate card holds, and a product is a double; sums of micros are integers.
-/

namespace Catalyst.Usage.Costs

open Library.Doubles

/-- `UsageRateCardTokenRatesConfig` -/
structure TokenRates where
  uncachedInputPricePerMillionTokens : ℚ≥0
  cachedInputPricePerMillionTokens : ℚ≥0
  outputPricePerMillionTokens : ℚ≥0
  deriving DecidableEq

structure ModelRate extends TokenRates where
  providerId : String
  model : String
  fast : Option TokenRates := none
  deriving DecidableEq

structure WebSearchRate where
  providerId : String
  model : Option String
  pricePerCall : ℚ≥0
  deriving DecidableEq

structure RateCard where
  id : String
  version : String
  currency : String := "USD"
  models : List ModelRate
  webSearch : List WebSearchRate := []
  deriving DecidableEq

inductive UsageSource
  | providerReported | notReported | estimated
  deriving DecidableEq

/-- What a provider reports: its counts are numbers, `none` where they are not finite. -/
structure ModelCallUsage where
  inputTokens : Option ℚ
  cachedInputTokens : Option (Option ℚ) := none
  outputTokens : Option ℚ
  totalTokens : Option ℚ
  source : UsageSource := .providerReported
  webSearchCallCount : Option (Option ℚ) := none
  providerServiceTier : Option String := none
  deriving DecidableEq

def normalizeCount : Option ℚ → Nat
  | some value => ⌊value⌋₊
  | none => 0

/-- The counts of a settlement. -/
structure Measured where
  inputTokens : Nat
  cachedInputTokens : Option Nat
  outputTokens : Nat
  totalTokens : Nat
  source : UsageSource
  webSearchCallCount : Nat
  providerServiceTier : Option String
  deriving DecidableEq

/-- `UsageCostEvent` -/
structure CostEvent extends Measured where
  providerId : String
  model : String
  fastMode : Bool
  deriving DecidableEq

def isBilledAsFast (event : CostEvent) : Bool :=
  event.fastMode && (event.providerServiceTier.isNone || event.providerServiceTier = some "priority")

inductive MissingMeter
  | tokenUsage | cachedInputTokens | modelRate | fastModelRate | webSearchRate
  deriving DecidableEq

structure Components where
  uncachedInputCostMicros : Int
  cachedInputCostMicros : Int
  outputCostMicros : Int
  webSearchCostMicros : Int
  deriving DecidableEq

/-- `UsageCostRecordProvenance`, without its source and the version of the calculation. -/
structure Provenance where
  rateCardId : String
  rateCardVersion : String
  currency : String
  appliedRates : TokenRates
  webSearchPricePerCall : Option ℚ≥0
  deriving DecidableEq

inductive UsageCostRecord
  | settled (provenance : Provenance) (components : Components) (totalCostMicros : Int)
  | incomplete (provenance : Provenance) (knownComponents : Components) (knownCostMicros : Int)
      (missingMeters : List MissingMeter)
  /-- `incompleteCost`: nothing could be priced. -/
  | unknown (unpriced : Bool) (missingMeter : MissingMeter)
  deriving DecidableEq

def product (tokens : Nat) (pricePerMillionTokens : ℚ≥0) : ℚ := ofRat (tokens * (pricePerMillionTokens : ℚ))

/-- `Math.round` rounds half of a micro up. -/
def priceTokens (tokens : Nat) (pricePerMillionTokens : ℚ≥0) : Int := round (product tokens pricePerMillionTokens)

def totalComponents (components : Components) : Int :=
  components.uncachedInputCostMicros + components.cachedInputCostMicros + components.outputCostMicros +
    components.webSearchCostMicros

def findWebSearchRate (rateCard : RateCard) (event : CostEvent) : Option WebSearchRate :=
  (rateCard.webSearch.find? fun rate => rate.providerId = event.providerId ∧ rate.model = some event.model).or
    (rateCard.webSearch.find? fun rate => rate.providerId = event.providerId ∧ rate.model = none)

def cachedTokens (event : CostEvent) (tokenRates : TokenRates) : Option Nat :=
  event.cachedInputTokens.or
    (if tokenRates.cachedInputPricePerMillionTokens = tokenRates.uncachedInputPricePerMillionTokens then some 0 else none)

def calculateKnownComponents (event : CostEvent) (tokenRates : TokenRates) (webSearchRate : Option WebSearchRate) :
    Components where
  uncachedInputCostMicros :=
    match cachedTokens event tokenRates with
    | some cached => priceTokens (event.inputTokens - cached) tokenRates.uncachedInputPricePerMillionTokens
    | none => 0
  cachedInputCostMicros :=
    match cachedTokens event tokenRates with
    | some cached => priceTokens cached tokenRates.cachedInputPricePerMillionTokens
    | none => 0
  outputCostMicros := priceTokens event.outputTokens tokenRates.outputPricePerMillionTokens
  webSearchCostMicros :=
    match webSearchRate with
    | some rate => round (ofRat (ofRat (event.webSearchCallCount * (rate.pricePerCall : ℚ)) * 1000000))
    | none => 0

def missingMeters (event : CostEvent) (tokenRates : TokenRates) (webSearchRate : Option WebSearchRate) :
    List MissingMeter :=
  let cachePriceDiffers :=
    tokenRates.cachedInputPricePerMillionTokens ≠ tokenRates.uncachedInputPricePerMillionTokens
  (if event.cachedInputTokens.isNone ∧ cachePriceDiffers then [.cachedInputTokens] else []) ++
    if 0 < event.webSearchCallCount ∧ webSearchRate.isNone then [.webSearchRate] else []

def ModelRate.settling (rate : ModelRate) (event : CostEvent) : Option TokenRates :=
  if isBilledAsFast event then rate.fast else some rate.toTokenRates

def RateCard.modelRate (rateCard : RateCard) (providerId model : String) : Option ModelRate :=
  rateCard.models.find? fun rate => rate.providerId = providerId ∧ rate.model = model

def calculateUsageCost (event : CostEvent) (rateCard : Option RateCard) : UsageCostRecord :=
  match rateCard with
  | none => .unknown true .modelRate
  | some rateCard =>
    if event.source = .notReported then .unknown false .tokenUsage
    else
      match rateCard.modelRate event.providerId event.model with
      | none => .unknown true .modelRate
      | some modelRate =>
        match modelRate.settling event with
        | none => .unknown true .fastModelRate
        | some tokenRates =>
          let webSearchRate := findWebSearchRate rateCard event
          let missing := missingMeters event tokenRates webSearchRate
          let components := calculateKnownComponents event tokenRates webSearchRate
          let provenance : Provenance :=
            ⟨rateCard.id, rateCard.version, rateCard.currency, tokenRates, webSearchRate.map (·.pricePerCall)⟩
          if missing ≠ [] then .incomplete provenance components (totalComponents components) missing
          else .settled provenance components (totalComponents components)

structure AdmittedModelCall where
  providerId : String
  model : String
  fastMode : Bool
  reserved : Counted
  deriving DecidableEq

def nothingReported : ModelCallUsage :=
  { inputTokens := some 0, cachedInputTokens := some (some 0), outputTokens := some 0, totalTokens := some 0,
    source := .notReported, webSearchCallCount := some (some 0) }

def measure (usage : ModelCallUsage) : Measured where
  inputTokens := normalizeCount usage.inputTokens
  cachedInputTokens := usage.cachedInputTokens.map fun cached =>
    min (normalizeCount cached) (normalizeCount usage.inputTokens)
  outputTokens := normalizeCount usage.outputTokens
  totalTokens := normalizeCount usage.totalTokens
  source := usage.source
  webSearchCallCount := normalizeCount (usage.webSearchCallCount.getD (some 0))
  providerServiceTier := usage.providerServiceTier

/-- What a call is settled with: `none` where it ended without a usage. -/
def settlementOf (call : AdmittedModelCall) (usage : Option ModelCallUsage) (rateCard : Option RateCard) :
    Measured × UsageCostRecord :=
  let measured := measure (usage.getD nothingReported)
  let priced := if usage.isNone then { measured with source := .estimated } else measured
  (measured, calculateUsageCost ⟨priced, call.providerId, call.model, call.fastMode⟩ rateCard)

def reservedCharactersPerInputToken : ℚ := 3

def modelCallReservedOutputTokens : ℚ := 16000

structure ModelCallAdmission where
  providerId : String
  model : String
  fastMode : Bool := false
  inputCharacters : Option ℚ
  maxOutputTokens : Option (Option ℚ) := none
  deriving DecidableEq

structure Governance where
  customer : Option RateCard
  dailySpendLimit : Option ℚ := none
  monthlySpendLimit : Option ℚ := none
  freeProviderIds : List String := []
  deriving DecidableEq

def Governance.hasSpendBudget (g : Governance) : Bool :=
  g.dailySpendLimit.any (· ≠ 0) || g.monthlySpendLimit.any (· ≠ 0)

def ModelCallAdmission.reservedInput (call : ModelCallAdmission) : Nat :=
  ⌈ofRat (normalizeCount call.inputCharacters / reservedCharactersPerInputToken)⌉₊

def ModelCallAdmission.reservedOutput (call : ModelCallAdmission) : Nat :=
  normalizeCount (call.maxOutputTokens.getD (some modelCallReservedOutputTokens))

def ModelRate.billable (rate : ModelRate) (fastMode : Bool) : List TokenRates :=
  rate.toTokenRates :: if fastMode then rate.fast.toList else []

def highest (price : TokenRates → ℚ≥0) (rates : List TokenRates) : ℚ≥0 := (rates.map price).foldr max 0

def highestInputPrice (rates : List TokenRates) : ℚ≥0 :=
  highest (fun r => max r.uncachedInputPricePerMillionTokens r.cachedInputPricePerMillionTokens) rates

def highestOutputPrice (rates : List TokenRates) : ℚ≥0 := highest (·.outputPricePerMillionTokens) rates

def billableRates (rateCard : Option RateCard) (call : ModelCallAdmission) : Option (List TokenRates) := do
  let rate ← rateCard.bind (·.modelRate call.providerId call.model)
  if call.fastMode && rate.fast.isNone then none else some (rate.billable call.fastMode)

def highestCost (rateCard : Option RateCard) (call : ModelCallAdmission) (inputTokens outputTokens : Nat) : Option Int :=
  (billableRates rateCard call).map fun rates =>
    priceTokens inputTokens (highestInputPrice rates) + priceTokens outputTokens (highestOutputPrice rates)

/-- The most a call can use, taken from its request before it is sent. -/
def reservationOf (g : Governance) (call : ModelCallAdmission) : Except AppError Counted :=
  let costMicros :=
    if call.providerId ∈ g.freeProviderIds then some 0
    else highestCost g.customer call call.reservedInput call.reservedOutput
  if costMicros.isNone && g.hasSpendBudget then
    .error ⟨.forbidden, "The model has no price on the rate card; the spend budget cannot be evaluated safely"⟩
  else .ok ⟨call.reservedInput + call.reservedOutput, costMicros.getD 0⟩

/-- `admitModelCall`, where the ledger admits. -/
def admittedCall (g : Governance) (call : ModelCallAdmission) : Except AppError AdmittedModelCall := do
  let reserved ← reservationOf g call
  pure ⟨call.providerId, call.model, call.fastMode, reserved⟩

end Catalyst.Usage.Costs
