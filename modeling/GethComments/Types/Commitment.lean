import GethComments.Types.Rlp

/-!
# Commitment records

The records of the commitment database: a commitment, whether it has been spent
and whether a pooled transaction holds it.
-/

namespace GethComments

structure CM where
  cm : Bytes
  spent : Bool
  lock : Bool
  deriving DecidableEq, Repr

def newDefaultCM (cm : Bytes) : CM := ⟨cm, false, false⟩

def newCM (cm : Bytes) (spent : Bool) : CM := ⟨cm, spent, false⟩

namespace CM

/-- `Hash`: the record's key, which only depends on the commitment. -/
def hash [HashFns] (c : CM) : Hash := HashFns.keccak256 (Rlp.encodeString c.cm)

end CM

/-- The key under which a commitment is stored. -/
def cmHash [HashFns] (cm : Bytes) : Hash := (newDefaultCM cm).hash

section

variable [HashFns] (cm : Bytes) (spent : Bool)

@[simp] theorem hash_newDefaultCM : (newDefaultCM cm).hash = cmHash cm := rfl

@[simp] theorem hash_newCM : (newCM cm spent).hash = cmHash cm := rfl

end

end GethComments
