import ScoreTree.Proofs.BuiltValue
import ScoreTree.Proofs.ExactVector

/-!
# Shares

Over an ordered field both strategies do one thing: they give each score a positive weight, and divide
the weights by their sum (`probabilityValues_eq_shares`). What holds of such shares holds of the
probabilities of either strategy: they are a distribution (`isDistribution_shares`), and they are
ordered as the weights are.
-/

namespace ScoreTree

variable {K : Type*} [Field K]

namespace Vector

/-- The weight of each component, divided by the sum of the weights. -/
def shares (f : K → K) (xs : List K) : List K := xs.map fun x => f x / (xs.map f).sum

@[simp] theorem length_shares (f : K → K) (xs : List K) : (shares f xs).length = xs.length := by
  simp [shares]

theorem getD_shares {f : K → K} {xs : List K} {i : ℕ} (hi : i < xs.length) :
    (shares f xs).getD i 0 = f (xs.getD i 0) / (xs.map f).sum := by
  simp [shares, hi]

theorem normalize_map_eq_shares (f : K → K) (xs : List K) :
    normalize (xs.map f) = shares f xs := by
  rw [normalize_eq, List.map_map, shares]
  rfl

theorem sum_shares {f : K → K} {xs : List K} (h : (xs.map f).sum ≠ 0) : (shares f xs).sum = 1 := by
  simp only [shares, div_eq_mul_inv]
  rw [List.sum_map_mul_right, mul_inv_cancel₀ h]

end Vector

variable [LinearOrder K]

/-- Probabilities of `n` classes: each is positive, and they sum to one. Only a single class is
certain. -/
structure IsDistribution (n : ℕ) (p : List K) : Prop where
  length_eq : p.length = n
  pos : ∀ q ∈ p, 0 < q
  le_one : ∀ q ∈ p, q ≤ 1
  lt_one : 2 ≤ n → ∀ q ∈ p, q < 1
  sum_eq_one : p.sum = 1

variable [IsStrictOrderedRing K]

/-- Positive numbers with the sum one leave less than one to each of several. -/
theorem IsDistribution.of_pos {p : List K} (hpos : ∀ q ∈ p, 0 < q) (hsum : p.sum = 1) :
    IsDistribution p.length p := by
  refine ⟨rfl, hpos, ?_, ?_, hsum⟩
  · intro q hq
    rw [← hsum]
    exact List.single_le_sum (fun r hr => (hpos r hr).le) q hq
  · intro hlength q hq
    have hrest : 0 < (p.erase q).sum := by
      refine List.sum_pos _ (fun r hr => hpos r (List.mem_of_mem_erase hr)) ?_
      rw [← List.length_pos_iff, List.length_erase_of_mem hq]
      omega
    calc
      q < q + (p.erase q).sum := lt_add_of_pos_right q hrest
      _ = p.sum := List.sum_erase hq
      _ = 1 := hsum

namespace Vector

theorem isDistribution_shares {f : K → K} (hf : ∀ x, 0 < f x) {xs : List K} (hne : xs ≠ []) :
    IsDistribution xs.length (shares f xs) := by
  have hsum := sum_map_pos hf hne
  rw [← length_shares f xs]
  refine IsDistribution.of_pos ?_ (sum_shares hsum.ne')
  intro q hq
  obtain ⟨x, -, rfl⟩ := List.mem_map.mp hq
  exact div_pos (hf x) hsum

end Vector

variable [ExpLn K] [ExpLaws K]

/-- The weight of a score among the scores of all classes. -/
def Strategy.weight : Strategy → K → K
  | .ovr => Scalar.sigmoid
  | .multinomial => ExpLn.exp

theorem Strategy.weight_pos (strategy : Strategy) (t : K) : 0 < strategy.weight t := by
  cases strategy with
  | ovr => exact Scalar.sigmoid_pos t
  | multinomial => exact ExpLaws.exp_pos t

theorem Strategy.weight_mono (strategy : Strategy) : Monotone (strategy.weight : K → K) := by
  cases strategy with
  | ovr => exact Scalar.sigmoid_mono
  | multinomial => exact ExpLaws.exp_strictMono.monotone

theorem Logistic.probabilityValues_eq_shares (strategy : Strategy) (d : K) (ds : List K) :
    probabilityValues strategy d ds = Vector.shares strategy.weight (d :: ds) := by
  cases strategy with
  | ovr =>
    have hlogistic : (Scalar.logistic : K → K) = Scalar.sigmoid :=
      funext Scalar.logistic_eq_sigmoid
    rw [probabilityValues, hlogistic, Vector.normalize_map_eq_shares]
    rfl
  | multinomial => exact Vector.softmax_eq d ds

end ScoreTree
