import Mathlib
import RegisterMachine.Proofs.Assembly.Pool
import RegisterMachine.Proofs.Machine.Tracing
import RegisterMachine.Proofs.Text.Lossy

namespace RegisterMachine

namespace Machine

/-- The machine after text has been printed. -/
def printing (m : Machine) (text : String) : Machine :=
  (((m.setSuccess true).emit (.printed text)).count .dispatched).ask

variable {m : Machine} {p : Program} {id : UInt64} {text line : String}

/-- A call of `print` for a value that can be shown writes it, with the end of the line if this is wanted, and
reports success if the output takes it. -/
theorem exec_print (ip : UInt64) (hprint : p.syscalls[id.toNat]? = some Syscall.print)
    (htext : Syscall.rendered? m.memory (m.registers.get (.int 0)) (m.registers.get (.int 1))
      (m.registers.get (.int 2)) (m.registers.get (.int 3)) = some text)
    (hline : line = text ++ if m.registers.get (.int 4) = 0 then "" else "\n")
    (haccepts : p.environment m.asked (.output line) = .granted) :
    ∃ m', m.exec p ip (.syscall id) = .ok m' ∧ m'.untraced = (m.printing line).untraced := by
  have hcall : Syscall.print.call (m.viewIn p) =
      (Syscall.withSuccess (m.viewIn p) true, [.print line]) := by
    have hrendered : Syscall.rendered? (m.viewIn p).memory ((m.viewIn p).int 0) ((m.viewIn p).int 1)
        ((m.viewIn p).int 2) ((m.viewIn p).int 3) = some text := htext
    have hwritten : (if (m.viewIn p).int 4 = 0 then text else text ++ "\n") = line := by
      have hint : (m.viewIn p).int 4 = m.registers.get (.int 4) := rfl
      rw [hline, hint]
      split
      next => exact String.append_empty.symm
      next => rfl
    have hreply : (m.viewIn p).replies (.output line) = .granted := haccepts
    simp only [Syscall.print, hrendered, hwritten, Syscall.write, hreply]
  refine ⟨m.syscall p ip id, rfl, ?_⟩
  rw [syscall, hprint]
  by_cases hdebug : p.debug.atLeast .minimal
  · have hview : ∀ traced, (m.trace traced).viewIn p = m.viewIn p := fun _ => rfl
    simp only [if_pos hdebug, hview, hcall]
    rfl
  · simp only [if_neg hdebug, hcall]
    rfl

end Machine

namespace Assembly

namespace IntegerType

/-- What constants of the type are taken for when they are printed. -/
def printType : IntegerType → Syscall.PrintType
  | u8 => .u8
  | i8 => .i8
  | u16 => .u16
  | i16 => .i16
  | u32 => .u32
  | i32 => .i32
  | u64 => .u64
  | i64 => .i64

/-- The number of the type in calls of `print`. -/
def code : IntegerType → UInt64
  | u8 => 0
  | i8 => 1
  | u16 => 2
  | i16 => 3
  | u32 => 4
  | i32 => 5
  | u64 => 6
  | i64 => 7

theorem ofNumber?_code (t : IntegerType) : Syscall.PrintType.ofNumber? t.code = some t.printType := by
  cases t <;> rfl

theorem width?_printType (t : IntegerType) :
    ∃ w : Width, t.printType.width? = some w ∧ w.bytes = t.poolWidth := by
  cases t with
  | u8 | i8 | u16 | i16 => exact ⟨.word, rfl, rfl⟩
  | u32 | i32 => exact ⟨.double, rfl, rfl⟩
  | u64 | i64 => exact ⟨.quad, rfl, rfl⟩

/-- A word that is an integer modulo a power of two is this integer, if it is small enough. -/
theorem toInt_of_toNat {k : Nat} {x : BitVec (k + 1)} {z : Int} (h : (x.toNat : Int) = z % 2 ^ (k + 1))
    (hlow : -2 ^ k ≤ z) (hhigh : z < 2 ^ k) : x.toInt = z := by
  have hpow : (2 : Int) ^ (k + 1) = 2 * 2 ^ k := by rw [pow_succ, mul_comm]
  have hcast : ((2 ^ (k + 1) : Nat) : Int) = 2 * 2 ^ k := by push_cast; exact hpow
  rw [BitVec.toInt_eq_toNat_bmod, h, hpow, ← hcast, Int.emod_bmod]
  apply Int.bmod_eq_of_le <;> rw [hcast] <;> omega

/-- What is read from the bytes of an integer in the pool is shown as the integer. -/
theorem render_printType {t : IntegerType} {z : Int} {v : UInt64} (hlow : t.low ≤ z) (hhigh : z < t.bound)
    (hv : (v.toNat : Int) = z % 256 ^ t.poolWidth) : t.printType.render v = toString z := by
  cases t with
  | u8 =>
    have hlow : 0 ≤ z := hlow
    have hhigh : z < 2 ^ 8 := hhigh
    have hv : (v.toNat : Int) = z % 256 ^ 2 := hv
    have hz : (v.toUInt8.toNat : Int) = z := by
      rw [UInt64.toNat_toUInt8]
      omega
    exact congrArg toString hz
  | u16 =>
    have hlow : 0 ≤ z := hlow
    have hhigh : z < 2 ^ 16 := hhigh
    have hv : (v.toNat : Int) = z % 256 ^ 2 := hv
    have hz : (v.toUInt16.toNat : Int) = z := by
      rw [UInt64.toNat_toUInt16]
      omega
    exact congrArg toString hz
  | u32 =>
    have hlow : 0 ≤ z := hlow
    have hhigh : z < 2 ^ 32 := hhigh
    have hv : (v.toNat : Int) = z % 256 ^ 4 := hv
    have hz : (v.toUInt32.toNat : Int) = z := by
      rw [UInt64.toNat_toUInt32]
      omega
    exact congrArg toString hz
  | u64 =>
    have hlow : 0 ≤ z := hlow
    have hhigh : z < 2 ^ 64 := hhigh
    have hv : (v.toNat : Int) = z % 256 ^ 8 := hv
    have hz : (v.toNat : Int) = z := by omega
    exact congrArg toString hz
  | i8 =>
    have hv : (v.toNat : Int) = z % 256 ^ 2 := hv
    have hbits : (v.toUInt8.toNat : Int) = z % 2 ^ 8 := by
      rw [UInt64.toNat_toUInt8]
      omega
    exact congrArg toString (toInt_of_toNat hbits hlow hhigh)
  | i16 =>
    have hv : (v.toNat : Int) = z % 256 ^ 2 := hv
    have hbits : (v.toUInt16.toNat : Int) = z % 2 ^ 16 := by
      rw [UInt64.toNat_toUInt16]
      omega
    exact congrArg toString (toInt_of_toNat hbits hlow hhigh)
  | i32 =>
    have hv : (v.toNat : Int) = z % 256 ^ 4 := hv
    have hbits : (v.toUInt32.toNat : Int) = z % 2 ^ 32 := by
      rw [UInt64.toNat_toUInt32]
      omega
    exact congrArg toString (toInt_of_toNat hbits hlow hhigh)
  | i64 =>
    have hv : (v.toNat : Int) = z % 2 ^ 64 := hv
    exact congrArg toString (toInt_of_toNat hv hlow hhigh)

end IntegerType

namespace ConstantType

/-- The number of the type in calls of `print`. -/
def code : ConstantType → UInt64
  | integer t => t.code
  | float => 8
  | string => 9

/-- The text that a constant of the type is printed as, which was declared with another text. -/
inductive Shows : ConstantType → String → String → Prop
  | integer {t : IntegerType} {text : String} {z : Int} : Numeral.Denotes text.toList z →
      t.low ≤ z → z < t.bound → Shows (.integer t) text (toString z)
  | string {s : String} : Shows .string ("\"" ++ s ++ "\"") s

/-- The bytes of a constant are shown as it was declared, wherever they lie. -/
theorem Occupies.rendered {t : ConstantType} {text : String} {bs : Bytes} (h : t.Occupies text bs)
    (hfloat : t ≠ .float) : ∃ shown, t.Shows text shown ∧
      ∀ {m : Memory} {s : Slot} {front back : Bytes} {offset size : UInt64}, m.slot? 0 = some s →
        s.bytes.toList = front ++ bs ++ back → offset.toNat = front.length → size.toNat = bs.length →
        Syscall.rendered? m 0 offset size t.code = some shown := by
  have hslice : ∀ {s : Slot} {front back : Bytes} {offset size : UInt64},
      s.bytes.toList = front ++ bs ++ back → offset.toNat = front.length → size.toNat = bs.length →
      s.slice? offset.toNat size.toNat = some bs := fun hbytes hoffset hsize => by
    rw [hoffset, hsize]
    exact Slot.slice?_eq_some hbytes
  cases h with
  | @integer t _ z _ hdenotes hlow hhigh hlength hvalue =>
    refine ⟨toString z, .integer hdenotes hlow hhigh, fun hslot hbytes hoffset hsize => ?_⟩
    obtain ⟨w, hw, hwidth⟩ := t.width?_printType
    have hread := Slot.read?_eq_some hbytes hoffset (hwidth.trans hlength.symm)
    have hword : ((UInt64.ofNat bs.toNat).toNat : Int) = z % 256 ^ t.poolWidth := by
      have hlt : bs.toNat < Bytes.count w.bytes := by
        rw [hwidth, ← hlength]
        exact Bytes.toNat_lt bs
      rw [UInt64.toNat_ofNat_of_lt' (hlt.trans_le w.count_le), hvalue]
    have htype : Syscall.PrintType.ofNumber? (code (.integer t)) = some t.printType := t.ofNumber?_code
    simp only [Syscall.rendered?, hslot, hslice hbytes hoffset hsize, htype, Option.bind_eq_bind,
      Option.bind_some, hw, hread]
    exact congrArg some (IntegerType.render_printType hlow hhigh hword)
  | float _ _ _ => exact absurd rfl hfloat
  | @string shown =>
    refine ⟨shown, .string, fun hslot hbytes hoffset hsize => ?_⟩
    have htype : Syscall.PrintType.ofNumber? (code .string) = some .text := rfl
    have hwidth : Syscall.PrintType.text.width? = none := rfl
    simp only [Syscall.rendered?, hslot, hslice hbytes hoffset hsize, htype, Option.bind_eq_bind,
      Option.bind_some, hwidth]
    exact congrArg some (Text.ofBytesLossy_toUTF8 shown)

end ConstantType

/-- The constants of a source text without an error, other than floats, are printed as they were declared. As
long as the pool is in the first slot and the output takes what is written, a call of `print` with the place of
a constant, its size and the number of its type writes the integer in decimal digits, or the text between the
quotes, and the end of the line exactly if `i4` is not zero. It reports success, and besides the lines of the
trace nothing else happens. -/
theorem constants_printed {source : String} (h : (assemble source).errors = [])
    (hsize : (assemble source).byteCount < UInt64.size) :
    ∃ (p : Source) (bytes : Bytes) (i : Image),
      (∀ q : Source, Rows (Macro.expand source).lines q.rows ↔ q = p) ∧
      (assemble source).binary? = some bytes ∧ Image.load bytes = .ok i ∧
      (i.pool ≠ [] → ∀ c ∈ p.constants, c.type ≠ .float → ∃ (address size : UInt64) (shown : String),
        (scope (Macro.expand source).lines).value ("&" ++ c.name) = .ok address ∧
        (scope (Macro.expand source).lines).value ("#" ++ c.name) = .ok size ∧
        c.type.Shows c.text shown ∧
        ∀ (stackSize : Nat) (m : Machine) (program : Program) (ip id : UInt64),
          let line := shown ++ if m.registers.get (.int 4) = 0 then "" else "\n"
          program.syscalls[id.toNat]? = some Syscall.print →
          m.memory.slot? 0 = (Machine.ofImage i stackSize).memory.slot? 0 →
          m.registers.get (.int 0) = 0 → m.registers.get (.int 1) = address →
          m.registers.get (.int 2) = size → m.registers.get (.int 3) = c.type.code →
          program.environment m.asked (.output line) = .granted →
          ∃ m', m.exec program ip (.syscall id) = .ok m' ∧ m'.registers.get .op = 1 ∧
            m'.untraced = (m.printing line).untraced) := by
  obtain ⟨p, index, i, hanalysis, hwellFormed, hdescribes, hbinary, hload, hlength⟩ :=
    exists_loaded h hsize
  have hpool : i.pool.length < UInt64.size :=
    Nat.lt_of_le_of_lt (Nat.le_of_add_right_le i.length_pool_add_le) hlength
  have hlays : (scope (Macro.expand source).lines).Lays 0 p.constants i.pool :=
    hanalysis.knows.lays hwellFormed.constant_label (List.nil_append p.constants).symm .nil
      hdescribes.constants hpool
  refine ⟨p, i.encode, i, rows_iff_eq hanalysis.rows, hbinary, hload, fun hne c hc hfloat => ?_⟩
  obtain ⟨front, bs, back, address, size, hsplit, haddress, hplace, hlength, hbytes, hoccupies⟩ :=
    hlays.of_mem hc
  rw [Nat.zero_add] at hplace
  have hslot : (Slot.ofBytes i.pool).bytes.toList =
      front ++ bs ++ (back ++ List.replicate (i.pool.length % 2) 0) := by
    rw [Slot.toList_ofBytes, ← List.append_assoc, ← hsplit]
  obtain ⟨shown, hshows, hrendered⟩ := hoccupies.rendered hfloat
  refine ⟨address, size, shown, haddress, hlength, hshows, ?_⟩
  intro stackSize m program ip id line hprint hmemory hi0 hi1 hi2 hi3 haccepts
  rw [Machine.slot?_ofImage stackSize hne] at hmemory
  have htext : Syscall.rendered? m.memory (m.registers.get (.int 0)) (m.registers.get (.int 1))
      (m.registers.get (.int 2)) (m.registers.get (.int 3)) = some shown := by
    rw [hi0, hi1, hi2, hi3]
    exact hrendered hmemory hslot hplace hbytes
  obtain ⟨m', hexec, huntraced⟩ := Machine.exec_print ip hprint htext rfl haccepts
  have hregisters : m'.registers = (m.setSuccess true).registers :=
    (congrArg Machine.registers huntraced :)
  refine ⟨m', hexec, ?_, huntraced⟩
  rw [hregisters]
  exact Registers.get_set_self m.registers .op 1

/-- A program with an unsigned, a negative and a text constant prints the negative one. -/
theorem constants_printed_negative :
    let source := ".init main\n.u8 a 200\n.i8 b -0x2\n.string s \"xyz\"\n.code\nmain:\nexit"
    (assemble source).errors = [] ∧ (assemble source).byteCount < UInt64.size ∧
      ∃ i : Image, ((assemble source).binary?.bind fun bytes => (Image.load bytes).toOption) = some i ∧
        let m := { Machine.ofImage i 4 with
          registers := { Registers.initial with ints := ⟨#[0, 2, 2, 1, 7, 0, 0, 0, 0, 0], rfl⟩ } }
        ∃ m', m.exec (Program.ofImage i Syscall.builtin) 0 (.syscall 1) = .ok m' ∧
          m'.registers.get .op = 1 ∧ m'.untraced = (m.printing "-2\n").untraced := by
  intro source
  have herrors : (assemble source).errors = [] := by decide +kernel
  have hsize : (assemble source).byteCount < UInt64.size := by decide +kernel
  obtain ⟨p, bytes, i, hrows, hbinary, hload, hprint⟩ := constants_printed herrors hsize
  have himage : ((assemble source).binary?.bind fun bytes => (Image.load bytes).toOption) = some i := by
    rw [hbinary, Option.bind_some, hload]
    rfl
  have hpool : i.pool ≠ [] := by
    have hne : (((assemble source).binary?.bind fun bytes => (Image.load bytes).toOption).map
      Image.pool).getD [] ≠ [] := by decide +kernel
    rwa [himage] at hne
  have hp : Source.mk "main"
      [.constant ⟨.integer .u8, "a", "200"⟩, .constant ⟨.integer .i8, "b", "-0x2"⟩,
        .constant ⟨.string, "s", "\"xyz\""⟩]
      [.label "main", .instruction .exit []] = p :=
    (hrows _).mp (by rw [Rows]; decide +kernel)
  have hc : ConstantLine.mk (.integer .i8) "b" "-0x2" ∈ p.constants := by
    rw [← hp]
    decide +kernel
  obtain ⟨address, size, shown, haddress, hlength, hshows, hcall⟩ := hprint hpool _ hc nofun
  have hnames : ((scope (Macro.expand source).lines).value ("&" ++ "b")).toOption = some 2 ∧
      ((scope (Macro.expand source).lines).value ("#" ++ "b")).toOption = some 2 := by decide +kernel
  rw [haddress, hlength] at hnames
  have haddress : 2 = address := (Option.some.inj hnames.1).symm
  have hsize' : 2 = size := (Option.some.inj hnames.2).symm
  have hshown : shown = "-2" := by
    cases hshows with
    | @integer _ _ z hdenotes _ _ =>
      have hparse : Numeral.parse? "-0x2".toList = some (-2) := by decide +kernel
      rw [Numeral.parse?_eq_some_iff.mpr hdenotes] at hparse
      rw [Option.some.inj hparse]
      rfl
  subst hshown
  exact ⟨herrors, hsize, i, himage, hcall 4 _ _ 0 1 rfl rfl rfl haddress hsize' rfl rfl⟩

end Assembly

end RegisterMachine
