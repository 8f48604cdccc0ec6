/-!
# Methods and strategies

A fitted classifier answers four questions, its methods. The class probabilities of several scores
are made comparable in one of two ways, its strategies. Both are known by exact names.
-/

namespace ScoreTree

/-- An output of a classifier. -/
inductive Method where
  /-- The scores themselves. -/
  | decisionFunction
  /-- The index of the predicted class. -/
  | predict
  /-- The probability of the positive class, or of each class. -/
  | predictProba
  /-- The natural logarithm of the probabilities. -/
  | predictLogProba
  deriving DecidableEq

namespace Method

def all : List Method := [decisionFunction, predict, predictProba, predictLogProba]

def name : Method → String
  | decisionFunction => "decision_function"
  | predict => "predict"
  | predictProba => "predict_proba"
  | predictLogProba => "predict_log_proba"

def ofName? (text : String) : Option Method :=
  all.find? fun m => m.name == text

/-- Whether the output is a probability or its logarithm. -/
def isProbability : Method → Bool
  | decisionFunction | predict => false
  | predictProba | predictLogProba => true

instance : Inhabited Method := ⟨predictProba⟩

end Method

/-- How the scores of several classes become probabilities. -/
inductive Strategy where
  /-- Each class against the rest, divided by the sum. -/
  | ovr
  /-- All classes at once, by exponentials. -/
  | multinomial
  deriving DecidableEq

namespace Strategy

def all : List Strategy := [ovr, multinomial]

def name : Strategy → String
  | ovr => "ovr"
  | multinomial => "multinomial"

def ofName? (text : String) : Option Strategy :=
  all.find? fun s => s.name == text

end Strategy
end ScoreTree
