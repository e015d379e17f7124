import Ppr.Lib.Loops

/-!
# The page loops of pprdrv

`select_copies_method()`, `page_computations()`, `copy_pages()` and the document copies loop of
`real_main()` of `pprdrv.c`, with `signature()` of `pprdrv_signature.c` and the page mask of
`pagemask.c`.  An entry of `pagetable[]` is known by the number of its page.  Nothing promises that
the loops end, so they run with fuel.
-/

namespace Ppr.Pprdrv

open Loops

/-- `attr.pageorder`. -/
inductive PageOrder where
  | ascend
  | descend
  | special
deriving DecidableEq

/-- `N_Up.sigpart`. -/
inductive SigPart where
  | fronts
  | backs
  | both
deriving DecidableEq

/-- `sigpart & SIG_FRONTS`. -/
def SigPart.hasFronts : SigPart → Bool
  | .backs => false
  | _ => true

/-- `sigpart & SIG_BACKS`. -/
def SigPart.hasBacks : SigPart → Bool
  | .fronts => false
  | _ => true

/-- The fields of the queue file that the page loops read. -/
structure Job where
  /-- "%%Page:" comments, or -1 when the number is not known. -/
  pages : ℤ
  pageorder : PageOrder
  /-- Virtual pages per sheet. -/
  pagefactor : ℤ
  /-- There are "%%Page:" comments. -/
  script : Bool
  /-- Virtual pages per side. -/
  N : ℤ
  /-- Sheets per signature, 0 when signatures are off. -/
  sigsheets : ℤ
  sigpart : SigPart
  /-- -1 when not specified. -/
  copies : ℤ
  collate : Bool
  /-- `page_list.mask`, a bit for each page. -/
  mask : Option (List Bool)
  mask_length : ∀ m, mask = some m → m.length = pages.toNat
  /-- `ppr` has counted the comments. -/
  script_pages : script = true → 0 < pages
  /-- `ppr` resolves the -1 of a booklet when there are pages. -/
  sigsheets_nonneg : 0 < pages → 0 ≤ sigsheets

/-- What the page loops read about the printer. -/
structure Printer where
  /-- `OutputOrder` is -1. -/
  faceUp : Bool

/-- Why pprdrv does not return. -/
inductive Halt where
  | fatal (message : String)
  | divideByZero
  | outOfFuel

/-- What is sent to the printer. -/
inductive Sent where
  | jobStart
  /-- The text of a document without pages. -/
  | nonpages
  /-- `copy_a_page()`. -/
  | page (page newnumber : ℤ)
  /-- "%%Page: dummy". -/
  | dummy (newnumber : ℤ)
  | jobEnd
deriving DecidableEq

/-- A division of C. -/
def cdiv (a b : ℤ) : Except Halt ℤ :=
  if b = 0 then .error .divideByZero else .ok (a.tdiv b)

/-! ## The page mask -/

def Job.pagemaskGetBit (job : Job) (page : ℤ) : Bool :=
  match job.mask with
  | none => true
  | some m => if page ≤ 0 ∨ job.pages < page then true else m.getD (page - 1).toNat false

def Job.pagemaskCount (job : Job) : ℤ :=
  match job.mask with
  | none => job.pages
  | some m => m.count true

/-- The pages 1 to `pages`. -/
def Job.allPages (job : Job) : List ℤ := (List.range job.pages.toNat).map fun i : ℕ => (i : ℤ) + 1

/-- The loop of `make_pagetable()` over the pages that are left. -/
def Job.pagetableLoop (job : Job) (table : List ℤ) : List ℤ → Except Halt (List ℤ)
  | [] => .ok table
  | page :: rest =>
    if job.pagemaskGetBit page then
      if job.pagemaskCount ≤ table.length then
        .error (.fatal "make_pagetable(): bad job: pagetable[] overflow")
      else
        job.pagetableLoop (table ++ [page]) rest
    else
      job.pagetableLoop table rest

def Job.makePagetable (job : Job) : Except Halt (List ℤ) :=
  if job.pages ≤ 0 then
    .ok []
  else do
    let table ← job.pagetableLoop []
      (if job.pageorder = .descend then job.allPages.reverse else job.allPages)
    if (table.length : ℤ) ≠ job.pagemaskCount then
      .error (.fatal "make_pagetable(): assertion failed")
    else
      .ok table

/-! ## How the copies are made -/

/-- The variables `select_copies_method()` sets. -/
structure CopiesMethod where
  /-- Copies the printer is asked for. -/
  auto : ℤ
  autoCollate : ℤ
  /-- `copies_doc_countdown`. -/
  doc : ℤ
  /-- `copies_pages_countdown`. -/
  pages : ℤ
deriving DecidableEq

/-- Disabled until UIConstraints are parsed. -/
def printerCanCollate : Bool := false

def Job.selectCopiesMethod (job : Job) : CopiesMethod :=
  if job.copies < 2 ∨ !job.collate then
    { auto := job.copies, autoCollate := 0, doc := 1, pages := 1 }
  else if printerCanCollate then
    { auto := job.copies, autoCollate := 1, doc := 1, pages := 1 }
  else if !job.script ∨ job.pageorder = .special then
    { auto := 1, autoCollate := 0, doc := job.copies, pages := 1 }
  else
    { auto := 1, autoCollate := 0, doc := 1, pages := job.copies }

/-! ## The order of the sheets -/

/-- The variables `page_computations()` sets. -/
structure Paging where
  sheetcount : ℤ
  currentJobDirection : ℤ
  printDirection : ℤ

def Job.sheetcount (job : Job) : Except Halt ℤ := do
  let pages := job.pagemaskCount
  if job.sigsheets = 0 then
    cdiv (pages + job.pagefactor - 1) job.pagefactor
  else
    let signatureCount ← cdiv (pages + job.N * 2 * job.sigsheets - 1) (job.N * 2 * job.sigsheets)
    let double ← cdiv (job.N * 2) job.pagefactor
    .ok (signatureCount * job.sigsheets * double)

def Job.currentJobDirection (job : Job) : ℤ :=
  match job.pageorder with
  | .special => 1
  | .ascend => 1
  | .descend => -1

def Job.printDirection (job : Job) (printer : Printer) : ℤ :=
  if job.pageorder = .special then 1 else if printer.faceUp then -1 else 1

def pageComputations (job : Job) (printer : Printer) : Except Halt Paging := do
  let sheetcount ← job.sheetcount
  .ok ⟨sheetcount, job.currentJobDirection, job.printDirection printer⟩

/-! ## Signatures -/

/-- The page of a signature on place `sheetpage` of its sheet `sigsheet`. -/
def Job.sigpage (job : Job) (leftcentre sigsheet sheetpage : ℤ) : Except Halt ℤ :=
  if job.N = 2 then
    if sheetpage = 0 then .ok (leftcentre - sigsheet * 2)
    else if sheetpage = 1 then .ok (leftcentre + sigsheet * 2 + 1)
    else if sheetpage = 2 then .ok (leftcentre + sigsheet * 2 + 2)
    else if sheetpage = 3 then .ok (leftcentre - sigsheet * 2 - 1)
    else .error (.fatal "pprdrv_signature.c: this can't happend")
  else
    .ok sheetpage

/-- The number of the page on place `sheetpage` of a sheet, -1 when it is on the other side. -/
def Job.signature (job : Job) (sheetnumber sheetpage : ℤ) : Except Halt ℤ := do
  -- In simplex the two sides of a sheet are two sheets.
  let simplex := job.N = job.pagefactor
  let sheetpage := if simplex ∧ sheetnumber % 2 = 1 then sheetpage + job.N else sheetpage
  let sheetnumber := if simplex then sheetnumber.tdiv 2 else sheetnumber
  if (sheetpage < job.pagefactor.tdiv 2 ∧ !job.sigpart.hasFronts) ∨
      (job.pagefactor.tdiv 2 ≤ sheetpage ∧ !job.sigpart.hasBacks) then
    .ok (-1)
  else
    let sigpages := job.N * job.sigsheets * 2
    let signumber := sheetnumber.tdiv job.sigsheets
    let sigsheet := sheetnumber.tmod job.sigsheets
    let leftcentre := sigpages.tdiv 2 - 1
    let sigpage ← job.sigpage leftcentre sigsheet sheetpage
    .ok (signumber * sigpages + sigpage)

/-! ## The loops -/

/-- The number of the page on place `sheetmember` of a sheet, nothing when it is skipped. -/
def Job.pagenumber (job : Job) (sheetnumber sheetmember : ℤ) : Except Halt (Option ℤ) :=
  if job.sigsheets = 0 then
    .ok (some (sheetnumber * job.pagefactor + sheetmember))
  else do
    let pagenumber ← job.signature sheetnumber sheetmember
    .ok (if pagenumber = -1 then none else some pagenumber)

/-- The entry of the page table for a page number. -/
def Job.pageAt (job : Job) (table : List ℤ) (pagenumber : ℤ) : Option ℤ :=
  let pageindex :=
    if job.currentJobDirection = 1 then pagenumber else table.length - pagenumber - 1
  if pageindex < table.length ∧ 0 ≤ pageindex then table[pageindex.toNat]? else none

/-- A round of the loop over the places of a sheet.  `fill` is set when a missing page is to be
replaced by a dummy page. -/
def Job.copyMember (job : Job) (table : List ℤ) (fill : Bool) (sheetnumber sheetmember : ℤ) :
    Except Halt (List Sent) := do
  match ← job.pagenumber sheetnumber sheetmember with
  | none => .ok []
  | some pagenumber =>
    match job.pageAt table pagenumber with
    | some page => .ok [.page page (pagenumber + 1)]
    | none => .ok (if fill then [.dummy (pagenumber + 1)] else [])

/-- `for(sheetmember = 0; sheetmember < job.attr.pagefactor; sheetmember++)`. -/
def Job.copySheet (job : Job) (table : List ℤ) (fill : Bool) (sheetnumber : ℤ) :
    Except Halt (List Sent) := do
  let sent ← (List.range job.pagefactor.toNat).mapM fun m : ℕ =>
    job.copyMember table fill sheetnumber m
  .ok sent.flatten

/-- A round of `while(sheetnumber != sheetlimit)`. -/
def Job.sheetRound (job : Job) (paging : Paging) (table : List ℤ) (sheetlimit countdown : ℤ)
    (sheetnumber : ℤ) : Except Halt (Turn Sent ℤ) :=
  if sheetnumber = sheetlimit then
    .ok (.done sheetnumber)
  else do
    let fill := countdown ≠ 0 ∨ job.sigsheets ≠ 0 ∨ sheetnumber + paging.printDirection ≠ sheetlimit
    let sent ← job.copySheet table fill sheetnumber
    .ok (.more sent (sheetnumber + paging.printDirection))

/-- A round of `while(copies_pages_countdown--)`. -/
def Job.pagesRound (job : Job) (paging : Paging) (table : List ℤ) (fuel : ℕ) (countdown : ℤ) :
    Except Halt (Turn Sent ℤ) :=
  if countdown = 0 then
    .ok (.done (countdown - 1))
  else do
    let first := if paging.printDirection = -1 then paging.sheetcount - 1 else 0
    let sheetlimit := if paging.printDirection = -1 then -1 else paging.sheetcount
    let (sent, _) ← loop .outOfFuel
      (job.sheetRound paging table sheetlimit (countdown - 1)) fuel first
    .ok (.more sent (countdown - 1))

/-- `copy_pages()`, with the value of `copies_pages_countdown` before and after. -/
def Job.copyPages (job : Job) (paging : Paging) (fuel : ℕ) (countdown : ℤ) :
    Except Halt (List Sent × ℤ) := do
  let table ← job.makePagetable
  if table.length = 0 then
    .ok ([], countdown)
  else
    loop .outOfFuel (job.pagesRound paging table fuel) fuel countdown

/-- A round of `while(copies_doc_countdown--)`; the state is the two countdowns.  Without
"%%Page:" comments `copy_nonpages()` copies the text up to the trailer. -/
def Job.docRound (job : Job) (paging : Paging) (fuel : ℕ) (countdowns : ℤ × ℤ) :
    Except Halt (Turn Sent (ℤ × ℤ)) :=
  let (doc, pages) := countdowns
  if doc = 0 then
    .ok (.done (doc - 1, pages))
  else do
    let (sent, pages) ← (if job.script then job.copyPages paging fuel pages
      else .ok ([.nonpages], pages) : Except Halt (List Sent × ℤ))
    .ok (.more (.jobStart :: sent ++ [.jobEnd]) (doc - 1, pages))

/-- The page loops of `real_main()`. -/
def sendJob (job : Job) (printer : Printer) (fuel : ℕ) : Except Halt (List Sent) := do
  let paging ← pageComputations job printer
  let copies := job.selectCopiesMethod
  let (sent, _) ← loop .outOfFuel (job.docRound paging fuel) fuel (copies.doc, copies.pages)
  .ok sent

end Ppr.Pprdrv
