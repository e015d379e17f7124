import Ppr.Lib.Ascii
import Ppr.Lib.Chained

/-!
# Perl compatible hashes

`gu_hash()` and the tables of `gu_pch.c`.
-/

namespace Ppr

/-- A round of the loop of `gu_hash()`.  `temp` is an `int`, so its sign is shifted in. -/
def guHashRound (total : BitVec 32) (c : Byte) : BitVec 32 :=
  let total := (total <<< 4) + c.signExtend 32
  let temp := total &&& 0xf0000000#32
  if temp ≠ 0 then (total ^^^ temp.sshiftRight 24) ^^^ temp else total

/-- `gu_hash()`. -/
def guHash (modus : ℕ) [NeZero modus] (string : List Byte) : Fin modus :=
  Fin.ofNat modus (string.foldl guHashRound 0).toNat

/-- `struct PCH` with `bucket_count` buckets. -/
abbrev Pch (bucketCount : ℕ) [NeZero bucketCount] (β : Type) :=
  Chained.Table (List Byte) β (guHash bucketCount)

end Ppr
