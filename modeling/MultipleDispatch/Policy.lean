/-!
How a node of a dispatch tree picks the parameter that it tests.
-/

namespace MultipleDispatch

/-- What the tested parameter is chosen for. Ties go to the lowest parameter. -/
inductive Policy where
  /-- The largest set of candidates with one declared type is to be small. -/
  | smallestLargestBucket
  /-- The number of different declared types is to be great. -/
  | greatestVariation
  deriving DecidableEq

namespace Policy

/-- The policy in force when none is named. -/
def default : Policy := .smallestLargestBucket

/-- The name under which settings know a policy. -/
def name : Policy → String
  | smallestLargestBucket => "smallest_largest_bucket"
  | greatestVariation => "greatest_variation"

/-- The policy of a given name, spelled exactly. -/
def ofName? (text : String) : Option Policy :=
  [smallestLargestBucket, greatestVariation].find? fun p => p.name == text

end Policy

end MultipleDispatch
