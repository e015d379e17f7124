import Ppr.Lib.Reading

/-!
# The output buffer of pprdrv and TBCP

The write buffer of `pprdrv_buf.c` with its Tagged Binary Communications Protocol routines, and the
decoder `tbcp2bin.c`.  What has been written is `pipe ++ wbuf` whatever the flush points are
(`written_rawPrinterPutc`), so the stream a sequence of calls produces is the concatenation of one
code for each byte (`written_foldl_send`), and the decoder takes one code at a time off its input
(`tbcp2bin_tbcpCode`).

Left out are the counting of control-Ds and the errors of `select()` and `write()`, after which
pprdrv exits.
-/

namespace Ppr.Pprdrv

/-- Size of the write buffer. -/
def bufsize : ℕ := 8192

/-- The write buffer and the pipe to the interface. -/
structure Buf where
  pipe : List Byte
  /-- The bytes from `wbuf` up to `bptr`. -/
  wbuf : List Byte
  /-- Calls of `write()` so far. -/
  writes : ℕ
  fits : wbuf.length ≤ bufsize

/-- `wbuf_space`. -/
def Buf.space (b : Buf) : ℕ := bufsize - b.wbuf.length

/-- Everything that has been put into the buffer. -/
def Buf.written (b : Buf) : List Byte := b.pipe ++ b.wbuf

variable (os : ℕ → ℕ)

/-- The loop of `printer_flush()`: call `n` of `write()` takes from one byte to all that
remains. -/
def writeLoop (pipe remain : List Byte) (n : ℕ) : List Byte × ℕ :=
  if remain = [] then (pipe, n)
  else
    let rval := min remain.length (os n + 1)
    writeLoop (pipe ++ remain.take rval) (remain.drop rval) (n + 1)
termination_by remain.length
decreasing_by
  have := List.length_pos_of_ne_nil (by assumption : ¬ remain = [])
  simp only [List.length_drop]
  omega

/-- `printer_flush()`. -/
def printerFlush (b : Buf) : Buf :=
  let r := writeLoop os b.pipe b.wbuf b.writes
  { pipe := r.1, wbuf := [], writes := r.2, fits := Nat.zero_le _ }

/-- `*(bptr++) = c`, where there is space. -/
def Buf.store (b : Buf) (c : CInt) (h : b.space ≠ 0) : Buf :=
  { b with
    wbuf := b.wbuf ++ [c.setWidth 8]
    fits := by simp only [Buf.space, List.length_append, List.length_singleton] at *; omega }

theorem space_printerFlush (b : Buf) : (printerFlush os b).space ≠ 0 := by
  simp [printerFlush, Buf.space, bufsize]

/-- `raw_printer_putc()`. -/
def rawPrinterPutc (b : Buf) (c : CInt) : Buf :=
  if h : b.space = 0 then (printerFlush os b).store c (space_printerFlush os b) else b.store c h

/-- The codes that `tbcp_printer_putc()` quotes: control-A, -C, -D, -E, -Q, -S, -T, ESC and FS. -/
def tbcpQuoted : List CInt := [0x01, 0x03, 0x04, 0x05, 0x11, 0x13, 0x14, 0x1b, 0x1c]

/-- `tbcp_printer_putc()`. -/
def tbcpPrinterPutc (b : Buf) (c : CInt) : Buf :=
  if c ∈ tbcpQuoted then rawPrinterPutc os (rawPrinterPutc os b 1) (c ^^^ 0x40)
  else rawPrinterPutc os b c

/-- `tbcp_printer_write()`. -/
def tbcpPrinterWrite (signed : Bool) (b : Buf) (buf : List Byte) : Buf :=
  buf.foldl (fun b c => tbcpPrinterPutc os b (charToInt signed c)) b

/-- `tbcp_printer_puts()`: the string ends before its first NUL. -/
def tbcpPrinterPuts (signed : Bool) (b : Buf) (string : List Byte) : Buf :=
  tbcpPrinterWrite os signed b (cstr string)

/-- A byte as the argument of `putc`: a `char` or an `unsigned char`, promoted to `int`. -/
structure ByteArg where
  c : CInt
  isByte : ∃ b signed, c = charToInt signed b

/-- A call of an output routine while TBCP is on. -/
inductive Call where
  | putc (c : ByteArg)
  | puts (string : List Byte)
  | write (buf : List Byte)
  | flush

def send (signed : Bool) (b : Buf) : Call → Buf
  | .putc c => tbcpPrinterPutc os b c.c
  | .puts string => tbcpPrinterPuts os signed b string
  | .write buf => tbcpPrinterWrite os signed b buf
  | .flush => printerFlush os b

/-- The bytes a call passes. -/
def Call.bytes : Call → List Byte
  | .putc c => [c.c.setWidth 8]
  | .puts string => cstr string
  | .write buf => buf
  | .flush => []

/-- `main()` of `tbcp2bin.c`.  At an end of file after a control-A, EOF is -1 and what is written
is the low byte of `-1 ^ 0x40`. -/
def tbcp2bin : List Byte → List Byte
  | [] => []
  | [c] => if c = 4 then [] else if c = 1 then [0xbf] else [c]
  | c :: d :: input =>
    if c = 4 then tbcp2bin (d :: input)
    else if c = 1 then
      if d = 0x4d then tbcp2bin input else (d ^^^ 0x40) :: tbcp2bin input
    else c :: tbcp2bin (d :: input)

/-! ## The buffer -/

/-- However `write()` divides it, all that remains is sent. -/
theorem writeLoop_fst (pipe remain : List Byte) (n : ℕ) :
    (writeLoop os pipe remain n).1 = pipe ++ remain := by
  fun_induction writeLoop os pipe remain n with
  | case1 => simp
  | case2 pipe remain n _ rval ih =>
    rw [ih, List.append_assoc, List.take_append_drop]

theorem pipe_printerFlush (b : Buf) : (printerFlush os b).pipe = b.written :=
  writeLoop_fst os _ _ _

theorem written_printerFlush (b : Buf) : (printerFlush os b).written = b.written := by
  rw [Buf.written, pipe_printerFlush]
  exact List.append_nil _

theorem written_store (b : Buf) (c : CInt) (h : b.space ≠ 0) :
    (b.store c h).written = b.written ++ [c.setWidth 8] :=
  (List.append_assoc ..).symm

/-- A byte is appended to what has been written, whether the buffer is flushed before it or not. -/
theorem written_rawPrinterPutc (b : Buf) (c : CInt) :
    (rawPrinterPutc os b c).written = b.written ++ [c.setWidth 8] := by
  unfold rawPrinterPutc
  split_ifs with h
  · rw [written_store, written_printerFlush]
  · exact written_store b c h

/-! ## The code -/

/-- The code of one byte. -/
def tbcpCode (c : Byte) : List Byte :=
  if c.setWidth 32 ∈ tbcpQuoted then [1, c ^^^ 0x40] else [c]

/-- The control codes that must not reach the printer. -/
def controlCodes : List Byte := [0x03, 0x04, 0x05, 0x11, 0x13, 0x14, 0x1b, 0x1c]

/-- A byte is quoted or not, whether it has been promoted with its sign or not. -/
theorem charToInt_mem_tbcpQuoted :
    ∀ (c : Byte) (signed : Bool),
      (charToInt signed c ∈ tbcpQuoted ↔ c.setWidth 32 ∈ tbcpQuoted) ∧
      (charToInt signed c).setWidth 8 = c ∧
      (charToInt signed c ^^^ 0x40).setWidth 8 = c ^^^ 0x40 := by
  decide +kernel

theorem written_tbcpPrinterPutc (b : Buf) (signed : Bool) (c : Byte) :
    (tbcpPrinterPutc os b (charToInt signed c)).written = b.written ++ tbcpCode c := by
  obtain ⟨hmem, hlow, hxor⟩ := charToInt_mem_tbcpQuoted c signed
  simp only [tbcpPrinterPutc, tbcpCode, hmem]
  split_ifs
  · rw [written_rawPrinterPutc, written_rawPrinterPutc, hxor, List.append_assoc]
    rfl
  · rw [written_rawPrinterPutc, hlow]

theorem written_tbcpPrinterWrite (signed : Bool) (b : Buf) (buf : List Byte) :
    (tbcpPrinterWrite os signed b buf).written = b.written ++ buf.flatMap tbcpCode := by
  unfold tbcpPrinterWrite
  induction buf generalizing b with
  | nil => simp
  | cons c buf ih =>
    rw [List.foldl_cons, ih, written_tbcpPrinterPutc, List.flatMap_cons, List.append_assoc]

theorem written_send (signed : Bool) (b : Buf) (call : Call) :
    (send os signed b call).written = b.written ++ call.bytes.flatMap tbcpCode := by
  cases call with
  | putc c =>
    obtain ⟨c, b', signed', rfl⟩ := c
    have hlow := (charToInt_mem_tbcpQuoted b' signed').2.1
    simp only [send, Call.bytes, written_tbcpPrinterPutc, hlow, List.flatMap_cons,
      List.flatMap_nil, List.append_nil]
  | puts string => exact written_tbcpPrinterWrite os signed b _
  | write buf => exact written_tbcpPrinterWrite os signed b buf
  | flush => simp [send, Call.bytes, written_printerFlush]

/-- The calls write one code for each byte they pass. -/
theorem written_foldl_send (signed : Bool) (b : Buf) (calls : List Call) :
    (calls.foldl (send os signed) b).written =
      b.written ++ (calls.flatMap Call.bytes).flatMap tbcpCode := by
  induction calls generalizing b with
  | nil => simp
  | cons call calls ih =>
    rw [List.foldl_cons, ih, written_send, List.flatMap_cons, List.flatMap_append,
      List.append_assoc]

theorem tbcpCode_all : ∀ c : Byte, (tbcpCode c).all fun d => d ∉ controlCodes := by
  decide +kernel

/-! ## Decoding -/

theorem tbcp2bin_quoted (d : Byte) (input : List Byte) (h : d ≠ 0x4d) :
    tbcp2bin (1 :: d :: input) = (d ^^^ 0x40) :: tbcp2bin input := by
  rw [tbcp2bin, if_neg (by decide), if_pos rfl, if_neg h]

theorem tbcp2bin_plain (c : Byte) (input : List Byte) (h1 : c ≠ 1) (h4 : c ≠ 4) :
    tbcp2bin (c :: input) = c :: tbcp2bin input := by
  cases input with
  | nil =>
    show (if c = 4 then [] else if c = 1 then [0xbf] else [c]) = [c]
    rw [if_neg h4, if_neg h1]
  | cons d input => rw [tbcp2bin, if_neg h4, if_neg h1]

/-- No quoted byte looks like the introducer, and no byte that is not quoted is a control-A or a
control-D. -/
theorem tbcpCode_cases :
    ∀ c : Byte, tbcpCode c = [1, c ^^^ 0x40] ∧ c ^^^ 0x40 ≠ 0x4d ∧ c ^^^ 0x40 ^^^ 0x40 = c ∨
      tbcpCode c = [c] ∧ c ≠ 1 ∧ c ≠ 4 := by
  decide +kernel

theorem tbcp2bin_tbcpCode (c : Byte) (input : List Byte) :
    tbcp2bin (tbcpCode c ++ input) = c :: tbcp2bin input := by
  obtain ⟨hc, hM, hx⟩ | ⟨hc, h1, h4⟩ := tbcpCode_cases c
  · rw [hc, List.cons_append, List.cons_append, List.nil_append, tbcp2bin_quoted _ _ hM, hx]
  · rw [hc, List.cons_append, List.nil_append, tbcp2bin_plain c input h1 h4]

theorem tbcp2bin_flatMap (bytes : List Byte) : tbcp2bin (bytes.flatMap tbcpCode) = bytes := by
  induction bytes with
  | nil => rfl
  | cons c bytes ih => rw [List.flatMap_cons, tbcp2bin_tbcpCode, ih]

/-- Whatever is in the buffer, however the bytes are divided into calls and wherever the buffer is
flushed: the encoded stream has no control codes, and after the introducer it decodes to the
bytes. -/
theorem tbcp_transparent (signed : Bool) (b : Buf) (calls : List Call) :
    ∃ stream, (printerFlush os (calls.foldl (send os signed) b)).pipe = b.pipe ++ b.wbuf ++ stream ∧
      (∀ c ∈ stream, c ∉ controlCodes) ∧
      tbcp2bin (0x01 :: 0x4d :: stream) = calls.flatMap Call.bytes := by
  refine ⟨(calls.flatMap Call.bytes).flatMap tbcpCode, ?_, ?_, ?_⟩
  · rw [pipe_printerFlush, written_foldl_send]
    rfl
  · intro d hd
    obtain ⟨c, -, hc⟩ := List.mem_flatMap.1 hd
    simpa using List.all_eq_true.1 (tbcpCode_all c) d hc
  · exact tbcp2bin_flatMap _

end Ppr.Pprdrv
