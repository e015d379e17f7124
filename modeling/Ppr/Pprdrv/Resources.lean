import Ppr.Pprdrv.PrinterConf

/-!
# The table of resources

`find_resource()` of `findres.c`, the table of `pprdrv_res.c` with `add_drvres()` and
`add_resource()`, and `want_ttrasterizer()` of `pprdrv_tt.c`.  Places in the table are indices, so
nothing here is about the block of memory that `add_drvres()` moves.
-/

namespace Ppr.Pprdrv

/-! ## The cache -/

/-- `FONT_TYPE_1`. -/
def fontType1 : CInt := 1

/-- `FONT_TYPE_42`. -/
def fontType42 : CInt := 4

/-- `FONT_MACTRUETYPE`. -/
def fontMactruetype : CInt := 8

/-- `FONT_TYPE_TTF`. -/
def fontTypeTtf : CInt := 16

/-- The resources that PPR can provide. -/
structure Cache where
  /-- The text of `FONT_INDEX`, if it can be opened. -/
  fontIndex : Option (List Byte)
  /-- `try_resource_dir()`: the file of a resource, if `stat()` finds it. -/
  tryResourceDir : List Byte → List Byte → ℚ → CInt → Option (List Byte)

/-- A line of the index that is for a font: the file and the features. -/
def fontindexLine (resName line : List Byte) : Option (List Byte × CInt) := do
  if line.head? = some 35 then none
  else
    let (f1, p) ← guStrsep (· = 58) (some line)
    if f1 = resName then
      let (f2, p) ← guStrsep (· = 58) p
      let (f3, _) ← guStrsep (· = 58) p
      if f2 = [] ∨ f3 = [] then none else return (f3, BitVec.ofInt 32 (atoi f2))
    else none

/-- `try_fontindex()`. -/
def tryFontindex (cache : Cache) (resName : List Byte) : Option (List Byte × CInt) := do
  let text ← cache.fontIndex
  ((rawLines text).map chop).findSome? (fontindexLine resName)

/-- `find_resource()`: the file and the features. -/
def findResource (cache : Cache) (resType resName : List Byte) (version : ℚ) (revision : CInt) :
    Option (List Byte × CInt) :=
  if resType = ascii "font" then tryFontindex cache resName
  else (cache.tryResourceDir resType resName version revision).map fun f => (f, 0)

/-- `ppd_font_present()`. -/
def PpdState.fontPresent (s : PpdState) (fontname : List Byte) : Bool :=
  fontname ∈ s.ppdfont (hash fontname fontTabsize)

/-! ## The table -/

/-- `struct DRVRES`. -/
structure DrvRes where
  type : List Byte
  name : List Byte
  version : ℚ
  revision : CInt
  needed : Bool
  formerName : Option (List Byte) := none
  substCode : Option (List Byte) := none
  filename : Option (List Byte) := none
  dotTtf : Bool := false
  mactt : Bool := false
  forceIntoDocsetup : Bool := false
  forceIntoProlog : Bool := false

/-- The resource has this type and name. -/
def DrvRes.isCalled (d : DrvRes) (type name : List Byte) : Bool := d.type = type && d.name = name

/-- It goes into the document setup if it is a font, else into the prolog. -/
def DrvRes.force (d : DrvRes) : DrvRes :=
  if d.type = ascii "font" then { d with forceIntoDocsetup := true }
  else { d with forceIntoProlog := true }

/-- The table, and what is known of the rasterizer. -/
structure Resources where
  drvres : List DrvRes := []
  /-- `decided` of `want_ttrasterizer()`. -/
  decided : Bool := false
  type42Ok : Bool := false

namespace Resources

/-- `add_drvres()`. -/
def addDrvres (t : Resources) (needed fixinclude : Bool) (type name : List Byte) (version : ℚ)
    (revision : CInt) : Resources :=
  let d : DrvRes :=
    { type := type, name := name, version := version, revision := revision, needed := needed }
  { t with drvres := t.drvres ++ [if fixinclude then d.force else d] }

/-- `add_resource()`: nothing if the resource was not found. -/
def addResource (cache : Cache) (ppd : PpdState) (t : Resources) (type name : List Byte)
    (version : ℚ) (revision : CInt) : Option Resources :=
  match t.drvres.findIdx? (·.isCalled type name) with
  | some x => some { t with drvres := t.drvres.modify x DrvRes.force }
  | none =>
    let d : DrvRes :=
      { type := type, name := name, version := version, revision := revision, needed := false }
    if type = ascii "font" ∧ ppd.fontPresent name then
      some { t with drvres := t.drvres ++ [d.force] }
    else
      (findResource cache type name version revision).map fun found =>
        { t with drvres := t.drvres ++ [{ d with filename := some found.1 }.force] }

/-- `want_ttrasterizer()`. -/
def wantTtrasterizer (cache : Cache) (ppd : PpdState) (t : Resources) : Resources :=
  if t.decided then t
  else
    let t := { t with decided := true }
    match ppd.features.ttRasterizer with
    | .type42 => { t with type42Ok := true }
    | .accept68K =>
      if t.drvres.any (·.isCalled (ascii "file") (ascii "adobe_psp_TrueType")) then
        { t with type42Ok := true }
      else
        match t.addResource cache ppd (ascii "procset") (ascii "TrueDict") 27 0 with
        | some t => { t with type42Ok := true }
        | none => { t with type42Ok := false }
    | _ => { t with type42Ok := false }

end Resources

end Ppr.Pprdrv
