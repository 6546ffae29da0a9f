import RSX280.Clusters
import RSX280.Count
import RSX280.Release

/-!
# The count of free clusters

`M.FREE` is set by `FRECNT` when a volume is mounted, and from then on counts along with
`ALLSGC`, `ALLCTG` and `FREECL`. It is the number of free clusters (`Volume.Counted`), and goes
up just when a cluster that was in use is released, as long as the bits behind the last cluster
are set and no cluster is released that is free already. `FRECNT` counts whole bytes, and
`FREECL` does not look at the bit it clears; `FDEL` frees the cluster of an allocation block as
often as there are allocation blocks in it.
-/

namespace RSX280.Fileio

open Bitmap (Blocks Padded bbytes bitno bmhsz mask bct2 bct3 bct4 bmcnt passes)
open Count (zeros)

/-! ## `BMCNT` -/

section Bmcnt

variable (bm : Blocks) {vbn hl : ℕ}

end Bmcnt

/-! ## The count of a volume -/

namespace Volume

variable {v : Volume}

/-- `M.FREE` is the number of free clusters. -/
def Counted (v : Volume) : Prop := v.free = zeros v.bm.used 0 v.clusters

/-- `MOUNT`, as far as the count goes -/
def mount (v : Volume) : Volume := { v with toVcb := v.toVcb.frecnt }

/-- Is the cluster allocated? -/
def InUse (v : Volume) (n : ℕ) : Prop := n < v.clusters ∧ v.bm.used n = true

instance (n : ℕ) : Decidable (v.InUse n) := inferInstanceAs (Decidable (_ ∧ _))

/-- Each of the clusters that are released is counted if it was in use, and only then. -/
def Fair : Volume → List ℕ → Prop
  | _, [] => True
  | v, n :: l => (v.freecl n).free = (if v.InUse n then v.free + 1 else v.free) ∧ (v.freecl n).Fair l

/-- The clusters of the volume that are released are in use, and none is released twice. -/
structure Owned (v : Volume) (l : List ℕ) : Prop where
  nodup : (l.filter (· < v.clusters)).Nodup
  used : ∀ n, n ∈ l → n < v.clusters → v.bm.used n = true

end Volume

end RSX280.Fileio
