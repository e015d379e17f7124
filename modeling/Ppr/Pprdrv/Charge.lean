import Ppr.Pprdrv.EveryCopy

/-!
# Charging for what is printed

`compute_charge()` of `charge.c` and the totals of `printer_use_log()` of `pprdrv.c`, against the
sheets that come out of the printer.  A side is printed when there is a page of the document on it:
dummy pages leave it blank.
-/

namespace Ppr.Pprdrv

/-! ## The formulas -/

/-- `struct COMPUTED_CHARGE`. -/
structure ComputedCharge where
  perDuplex : ℤ
  perSimplex : ℤ
  duplexSheets : ℤ
  simplexSheets : ℤ
  total : ℤ

/-- The duplex and simplex sheets of one copy. -/
def chargedSheets (vpages nUpN vpagesPerSheet sigsheets : ℤ) (sigpart : SigPart) :
    Except Halt (ℤ × ℤ) :=
  if sigsheets ≠ 0 then do
    let signatureCount ← cdiv (vpages + nUpN * 2 * sigsheets - 1) (nUpN * 2 * sigsheets)
    if sigpart = .both then do
      let double ← cdiv (nUpN * 2) vpagesPerSheet
      .ok (signatureCount * sigsheets * double, 0)
    else if vpagesPerSheet = nUpN then
      .ok (0, signatureCount * sigsheets)
    else
      .ok ((signatureCount * sigsheets + 1).tdiv 2, 0)
  else do
    let sides ← cdiv (vpages + nUpN - 1) nUpN
    if vpagesPerSheet = nUpN then .ok (0, sides) else .ok (sides.tdiv 2, sides.tmod 2)

def computeCharge (perDuplex perSimplex vpages nUpN vpagesPerSheet sigsheets : ℤ)
    (sigpart : SigPart) (copies : ℤ) : Except Halt ComputedCharge := do
  let (duplex, simplex) ← chargedSheets vpages nUpN vpagesPerSheet sigsheets sigpart
  -- -1 means that the number of copies is not known.
  let times := if 0 ≤ copies then copies else 1
  let duplexSheets := duplex * times
  let simplexSheets := simplex * times
  .ok { perDuplex, perSimplex, duplexSheets, simplexSheets
        total := duplexSheets * perDuplex + simplexSheets * perSimplex }

/-- The charge for a job. -/
def Job.charge (job : Job) (perDuplex perSimplex : ℤ) : Except Halt ComputedCharge :=
  computeCharge perDuplex perSimplex job.pagemaskCount job.N job.pagefactor job.sigsheets
    job.sigpart job.copies

/-- The numbers in a line of the print log. -/
structure UseLog where
  pages : ℤ
  totalPrintedSheets : ℤ
  totalPrintedSides : ℤ
  /-- In cents. -/
  charge : ℤ

/-- The printed sides of one copy. -/
def Job.sidecount (job : Job) (sheetcount : ℤ) : Except Halt ℤ :=
  if job.sigsheets = 0 then
    cdiv (job.pagemaskCount + job.N - 1) job.N
  else if job.sigpart = .both then
    .ok (sheetcount * 2)
  else
    .ok sheetcount

def Job.printerUseLog (job : Job) (perDuplex perSimplex : ℤ) : Except Halt UseLog := do
  let sheetcount ← job.sheetcount
  let sidecount ← job.sidecount sheetcount
  let times := if 1 < job.copies then job.copies else 1
  let charge ← (if 0 < perDuplex ∨ 0 < perSimplex then do
      let charge ← job.charge perDuplex perSimplex
      .ok charge.total
    else .ok 0 : Except Halt ℤ)
  .ok { pages := job.pagemaskCount
        totalPrintedSheets := sheetcount * times
        totalPrintedSides := sidecount * times
        charge }

/-! ## What comes out of the printer -/

/-- The sheets that come out, each with what is on its places.  A sheet is ejected when all its
`places` are used, and at the end of a document; `sheet` is in the printer. -/
def eject (places : ℕ) (sheet : List Sent) : List Sent → List (List Sent)
  | [] => []
  | .jobEnd :: rest => if sheet = [] then eject places [] rest else sheet :: eject places [] rest
  | .page p n :: rest =>
    if sheet.length + 1 = places then (sheet ++ [.page p n]) :: eject places [] rest
    else eject places (sheet ++ [.page p n]) rest
  | .dummy n :: rest =>
    if sheet.length + 1 = places then (sheet ++ [.dummy n]) :: eject places [] rest
    else eject places (sheet ++ [.dummy n]) rest
  | .jobStart :: rest => eject places sheet rest
  | .nonpages :: rest => eject places sheet rest

/-- A page of the document. -/
def Sent.isDocument : Sent → Bool
  | .page _ _ => true
  | _ => false

/-- The printed sides of a sheet: the first `N` places are the front, the others the back. -/
def printedSides (N : ℕ) (sheet : List Sent) : ℕ :=
  (if (sheet.take N).any Sent.isDocument then 1 else 0) +
    if (sheet.drop N).any Sent.isDocument then 1 else 0

/-- The sheets with this many printed sides. -/
def Job.sheetsWith (job : Job) (sides : ℕ) (out : List Sent) : ℕ :=
  (eject job.pagefactor.toNat [] out).countP fun sheet => printedSides job.N.toNat sheet == sides

/-- The charge and the totals of the log are what is used, with the copies the printer makes. -/
def Job.ChargedAsPrinted (job : Job) (printer : Printer) (perDuplex perSimplex : ℤ) : Prop :=
  ∃ out charge log, Returns job printer out ∧ job.charge perDuplex perSimplex = .ok charge ∧
    job.printerUseLog perDuplex perSimplex = .ok log ∧
    charge.duplexSheets = job.sheetsWith 2 out * job.selectCopiesMethod.auto ∧
    charge.simplexSheets = job.sheetsWith 1 out * job.selectCopiesMethod.auto ∧
    log.totalPrintedSheets = charge.duplexSheets + charge.simplexSheets ∧
    log.totalPrintedSides = 2 * charge.duplexSheets + charge.simplexSheets

end Ppr.Pprdrv
