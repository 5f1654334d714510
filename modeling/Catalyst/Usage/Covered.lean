import Catalyst.Usage.Costs
import Mathlib.Tactic.Linarith
import Mathlib.Tactic.NormNum

/-!
# What a reservation covers

A reservation rounds the price of the input once; a settlement rounds the prices of the cached
and of the other input tokens each on its own, and two roundings can add a micro to what one
adds. The settled cost stays within the reservation exactly where the reservation has that
micro to spare.
-/

namespace Catalyst.Usage.Costs

open Library.Doubles

def added (price : ℚ) : ℚ := round price - price

/-- The prices of input and output that an admission reserves at; without a cost it reserves nothing. -/
def reservedPrices (g : Governance) (call : ModelCallAdmission) : ℚ≥0 × ℚ≥0 :=
  if call.providerId ∈ g.freeProviderIds then (0, 0)
  else
    match billableRates g.customer call with
    | some rates => (highestInputPrice rates, highestOutputPrice rates)
    | none => (0, 0)

def pricedEvent (call : ModelCallAdmission) (usage : ModelCallUsage) : CostEvent :=
  ⟨measure usage, call.providerId, call.model, call.fastMode⟩

def usedRates (g : Governance) (event : CostEvent) : Option TokenRates :=
  (g.customer.bind (·.modelRate event.providerId event.model)).bind (·.settling event)

/-- What rounding adds to the two parts of the input is at most what rounding may take from the
reserved input, half a micro, and what the reservation holds beyond the tokens used. -/
def RoundingIsSpared (g : Governance) (call : ModelCallAdmission) (usage : ModelCallUsage) : Prop :=
  let event := pricedEvent call usage
  let (inputPrice, outputPrice) := reservedPrices g call
  ∀ rates ∈ usedRates g event, ∀ cached ∈ cachedTokens event rates,
    let uncachedPart := product (event.inputTokens - cached) rates.uncachedInputPricePerMillionTokens
    let cachedPart := product cached rates.cachedInputPricePerMillionTokens
    added uncachedPart + added cachedPart ≤
      1 / 2 + (product call.reservedInput inputPrice - (uncachedPart + cachedPart)) +
        (priceTokens call.reservedOutput outputPrice -
          priceTokens event.outputTokens rates.outputPricePerMillionTokens : Int)

variable {g : Governance} {call : ModelCallAdmission} {usage : ModelCallUsage}

@[simp] theorem product_zero_price (tokens : Nat) : product tokens 0 = 0 := by
  simp [product]

@[simp] theorem product_zero_tokens (price : ℚ≥0) : product 0 price = 0 := by
  simp [product]

@[simp] theorem priceTokens_zero_tokens (price : ℚ≥0) : priceTokens 0 price = 0 := by
  simp [priceTokens]

@[simp] theorem priceTokens_zero_price (tokens : Nat) : priceTokens tokens 0 = 0 := by
  simp [priceTokens]

theorem reserved_cost {reserved : Counted} (h : reservationOf g call = .ok reserved) :
    reserved.costMicros = priceTokens call.reservedInput (reservedPrices g call).1 +
      priceTokens call.reservedOutput (reservedPrices g call).2 := by
  have hcost : reserved.costMicros = (if call.providerId ∈ g.freeProviderIds then some 0
      else highestCost g.customer call call.reservedInput call.reservedOutput).getD 0 := by
    unfold reservationOf at h
    generalize (if call.providerId ∈ g.freeProviderIds then some 0
      else highestCost g.customer call call.reservedInput call.reservedOutput) = cost at h ⊢
    simp only at h
    split at h
    · cases h
    · cases h
      rfl
  rw [hcost]
  by_cases hfree : call.providerId ∈ g.freeProviderIds
  · simp [reservedPrices, hfree]
  · cases hrates : billableRates g.customer call with
    | none => simp [reservedPrices, hfree, highestCost, hrates]
    | some rates => simp [reservedPrices, hfree, highestCost, hrates]

theorem settled_cost {event : CostEvent}
    (h : calculateUsageCost event g.customer = .settled provenance components total) (hw : event.webSearchCallCount = 0) :
    ∃ rates cached, usedRates g event = some rates ∧ cachedTokens event rates = some cached ∧
      total = priceTokens (event.inputTokens - cached) rates.uncachedInputPricePerMillionTokens +
        priceTokens cached rates.cachedInputPricePerMillionTokens +
        priceTokens event.outputTokens rates.outputPricePerMillionTokens := by
  unfold calculateUsageCost at h
  split at h
  · cases h
  · rename_i rateCard hcard
    split at h
    · cases h
    · split at h
      · cases h
      · rename_i modelRate hrate
        split at h
        · cases h
        · rename_i rates hrates
          simp only at h
          split at h
          · cases h
          · rename_i hmissing
            cases h
            have hused : usedRates g event = some rates := by simp [usedRates, hcard, hrate, hrates]
            obtain ⟨cached, hcached⟩ : ∃ cached, cachedTokens event rates = some cached := by
              unfold cachedTokens
              cases hc : event.cachedInputTokens with
              | some cached => exact ⟨cached, rfl⟩
              | none =>
                refine ⟨0, ?_⟩
                rw [Option.none_or, if_pos]
                by_contra hne
                simp [missingMeters, hc, hne] at hmissing
            refine ⟨rates, cached, hused, hcached, ?_⟩
            have hweb : (calculateKnownComponents event rates (findWebSearchRate rateCard event)).webSearchCostMicros = 0 := by
              unfold calculateKnownComponents
              cases findWebSearchRate rateCard event <;> simp [hw]
            rw [totalComponents, hweb]
            simp [calculateKnownComponents, hcached]

theorem le_priceTokens {n : Int} {tokens : Nat} {price : ℚ≥0} :
    n ≤ priceTokens tokens price ↔ (n : ℚ) ≤ product tokens price + 1 / 2 := by
  rw [priceTokens, round_eq, Int.le_floor]

theorem priceTokens_eq (tokens : Nat) (price : ℚ≥0) :
    (priceTokens tokens price : ℚ) = product tokens price + added (product tokens price) := by
  rw [added, priceTokens]
  ring

theorem added_le (price : ℚ) : added price ≤ 1 / 2 := by
  have h := abs_sub_round price
  rw [abs_le] at h
  rw [added]
  linarith

@[simp] theorem added_zero : added 0 = 0 := by
  simp [added]

theorem product_mono {tokens tokens' : Nat} {price price' : ℚ≥0} (ht : tokens ≤ tokens') (hp : price ≤ price') :
    product tokens price ≤ product tokens' price' := by
  refine ofRat_mono (mul_le_mul ?_ ?_ price.coe_nonneg (Nat.cast_nonneg _))
  · exact_mod_cast ht
  · exact_mod_cast hp

theorem priceTokens_mono {tokens tokens' : Nat} {price price' : ℚ≥0} (ht : tokens ≤ tokens') (hp : price ≤ price') :
    priceTokens tokens price ≤ priceTokens tokens' price' := by
  rw [priceTokens, priceTokens, round_eq, round_eq]
  exact Int.floor_mono (add_le_add_left (product_mono ht hp) _)

theorem le_highest {price : TokenRates → ℚ≥0} {rates : List TokenRates} {r : TokenRates} (h : r ∈ rates) :
    price r ≤ highest price rates := by
  induction rates with
  | nil => cases h
  | cons x xs ih =>
    rw [highest, List.map_cons, List.foldr_cons]
    rcases List.mem_cons.mp h with rfl | h
    · exact le_max_left _ _
    · exact (ih h).trans (le_max_right _ _)

theorem mem_billable {rate : ModelRate} {event : CostEvent} {rates : TokenRates}
    (h : rate.settling event = some rates) : rates ∈ rate.billable event.fastMode := by
  unfold ModelRate.settling at h
  split at h
  · rename_i hfast
    have hmode : event.fastMode = true := by
      unfold isBilledAsFast at hfast
      exact (Bool.and_eq_true_iff.mp hfast).1
    simp [ModelRate.billable, hmode, h]
  · cases h
    exact List.mem_cons_self

theorem used_mem_billable {rates : List TokenRates} (hrates : billableRates g.customer call = some rates)
    (hused : usedRates g (pricedEvent call usage) = some rates') : rates' ∈ rates := by
  unfold billableRates at hrates
  cases hrate : g.customer.bind (·.modelRate call.providerId call.model) with
  | none => simp [hrate] at hrates
  | some rate =>
    have hsettling : rate.settling (pricedEvent call usage) = some rates' := by
      have hused : (g.customer.bind (·.modelRate call.providerId call.model)).bind
        (·.settling (pricedEvent call usage)) = some rates' := hused
      rwa [hrate] at hused
    simp only [hrate, Option.bind_eq_bind, Option.bind_some] at hrates
    split at hrates
    · cases hrates
    · cases hrates
      exact mem_billable hsettling

/-- A reservation at the rates of the card covers a call whose input is all of one kind. -/
theorem spared_of_unsplit {rates : List TokenRates} (hfree : call.providerId ∉ g.freeProviderIds)
    (hrates : billableRates g.customer call = some rates)
    (hi : (measure usage).inputTokens ≤ call.reservedInput) (ho : (measure usage).outputTokens ≤ call.reservedOutput)
    (hone : ∀ cached, cachedTokens (pricedEvent call usage) rates' = some cached →
      cached = 0 ∨ cached = (measure usage).inputTokens)
    (hused : usedRates g (pricedEvent call usage) = some rates') : RoundingIsSpared g call usage := by
  have hmem : rates' ∈ rates := used_mem_billable hrates hused
  have hinput : max rates'.uncachedInputPricePerMillionTokens rates'.cachedInputPricePerMillionTokens ≤
      highestInputPrice rates := le_highest hmem
  have houtput : rates'.outputPricePerMillionTokens ≤ highestOutputPrice rates := le_highest hmem
  have hprices : reservedPrices g call = (highestInputPrice rates, highestOutputPrice rates) := by
    simp [reservedPrices, hfree, hrates]
  have hunused := priceTokens_mono ho houtput
  unfold RoundingIsSpared
  simp only [hprices, hused, Option.mem_some_iff, forall_eq']
  intro cached hcached
  have hunusedRat : (0 : ℚ) ≤ (priceTokens call.reservedOutput (highestOutputPrice rates) -
      priceTokens (measure usage).outputTokens rates'.outputPricePerMillionTokens : Int) := by
    exact_mod_cast sub_nonneg.mpr hunused
  have hshow : (pricedEvent call usage).outputTokens = (measure usage).outputTokens := rfl
  have hshow' : (pricedEvent call usage).inputTokens = (measure usage).inputTokens := rfl
  rw [hshow, hshow']
  rcases hone cached hcached with rfl | rfl
  · have hle := product_mono hi ((le_max_left _ _).trans hinput)
    have := added_le (product (measure usage).inputTokens rates'.uncachedInputPricePerMillionTokens)
    simp only [Nat.sub_zero, product_zero_tokens, added_zero, add_zero]
    linarith
  · have hle := product_mono hi ((le_max_right _ _).trans hinput)
    have := added_le (product (measure usage).inputTokens rates'.cachedInputPricePerMillionTokens)
    simp only [Nat.sub_self, product_zero_tokens, added_zero, zero_add]
    linarith

theorem admittedCall_ok {admitted : AdmittedModelCall} (h : admittedCall g call = .ok admitted) :
    ∃ reserved, reservationOf g call = .ok reserved ∧
      admitted = ⟨call.providerId, call.model, call.fastMode, reserved⟩ := by
  unfold admittedCall at h
  cases hr : reservationOf g call with
  | error e => simp [hr, bind, Except.bind] at h
  | ok reserved =>
    simp only [hr, bind, Except.bind, pure, Except.pure, Except.ok.injEq] at h
    exact ⟨reserved, rfl, h.symm⟩

namespace Example

def halfMicro : RateCard where
  id := "card"
  version := "1"
  models := [{ uncachedInputPricePerMillionTokens := 1 / 2, cachedInputPricePerMillionTokens := 1 / 2
               outputPricePerMillionTokens := 0, providerId := "provider", model := "model" }]

def governance : Governance where
  customer := some halfMicro

def request : ModelCallAdmission where
  providerId := "provider"
  model := "model"
  inputCharacters := some 6
  maxOutputTokens := some (some 0)

def halfCached : ModelCallUsage where
  inputTokens := some 2
  cachedInputTokens := some (some 1)
  outputTokens := some 0
  totalTokens := some 2

def admitted : AdmittedModelCall := ⟨"provider", "model", false, ⟨2, 1⟩⟩

def provenance : Provenance := ⟨"card", "1", "USD", ⟨1 / 2, 1 / 2, 0⟩, none⟩

theorem admitted_eq : admittedCall governance request = .ok admitted := by with_unfolding_all decide

def fresh : ModelCallUsage := { halfCached with cachedInputTokens := some (some 0) }

theorem fresh_settled : (settlementOf admitted (some fresh) governance.customer).2 =
    .settled provenance ⟨1, 0, 0, 0⟩ 1 := by
  with_unfolding_all decide

theorem settled_eq : (settlementOf admitted (some halfCached) governance.customer).2 =
    .settled provenance ⟨1, 1, 0, 0⟩ 2 := by
  with_unfolding_all decide

end Example

end Catalyst.Usage.Costs
