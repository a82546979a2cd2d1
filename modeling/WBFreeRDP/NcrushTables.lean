/-
# The tables of NCRUSH

`ncrush.c` codes literals, the end of the stream and copy offsets in one static Huffman code (LEC)
and the lengths of matches in another (LOM).  The sender has the codes and their lengths, the
receiver a table indexed by the next 13 or 9 bits whose entries are the length of the code in the
upper four bits and the symbol below.

The large tables are written sixteen entries a row, in the order of the source; a last row that is
not full ends in zeros.
-/
import WBFreeRDP.LowBits
import Mathlib.Data.List.GetD

namespace WBFreeRDP.Ncrush

open LowBits List Nat

/-! ## The receiver's tables -/

/-- A table of `width`-bit entries, sixteen in a row, the first one on top. -/
def packRows (width : ℕ) (rows : List ℕ) : ℕ :=
  rows.foldl (fun packed row => packed <<< (16 * width) ||| row) 0

/-- An entry of a packed table of `size` entries. -/
def packedEntry (width packed size i : ℕ) : ℕ :=
  (packed >>> (width * (size - 1 - i))) % 2 ^ width

/-- The first 63 rows of `HuffTableLEC`, which the table has eight times. -/
def huffBlockLEC : List ℕ := [
  0x510B611F610D9027600071056117A06851117007611390C061088018611BA0B3,
  0x510F7003611090426002800B6119A091512170806115A03A610A9012611DA0D7,
  0x510B6122610E9035600171236118A07A51117009611490F461098060611CA0C4,
  0x510F7005611290706107800F611AA0A1512171026116A056610C901D611EA0E8,
  0x510B611F610D902C600071066117A07151117008611390E061088020611BA0BB,
  0x510F7004611090496002800D6119A099512170FF6115A04C610A9017611DA0DF,
  0x510B6122610E903C600171246118A0875111700A6114A023610980FE611CA0CE,
  0x510F70066112908261078011611AA0A9512171036116A05F610C9022611EA0F5,
  0x510B611F610D9029600071056117A06C51117007611390CC61088019611BA0B7,
  0x510F7003611090446002800C6119A095512170806115A046610A9015611DA0DB,
  0x510B6122610E9038600171236118A07E51117009611490FC610980F0611CA0C9,
  0x510F70056112907F61078010611AA0A5512171026116A05B610C901F611EA0EC,
  0x510B611F610D9031600071066117A07551117008611390F161088040611BA0BF,
  0x510F7004611090516002800E6119A09D512170FF6115A052610A901B611DA0E4,
  0x510B6122610E903F600171246118A08C5111700A6114A02F61098120611CA0D3,
  0x510F70066112908861078013611AA0AE512171036116A064610C9025611EA0FA,
  0x510B611F610D9028600071056117A06A51117007611390C661088018611BA0B5,
  0x510F7003611090436002800B6119A093512170806115A03D610A9014611DA0D9,
  0x510B6122610E9037600171236118A07C51117009611490F861098060611CA0C7,
  0x510F7005611290786107800F611AA0A3512171026116A058610C901E611EA0EA,
  0x510B611F610D9030600071066117A07351117008611390EE61088020611BA0BD,
  0x510F7004611090506002800D6119A09B512170FF6115A04E610A901A611DA0E2,
  0x510B6122610E903E600171246118A08A5111700A6114A02D610980FE611CA0D1,
  0x510F70066112908461078011611AA0AC512171036116A062610C9024611EA0F7,
  0x510B611F610D902A600071056117A06E51117007611390D061088019611BA0B9,
  0x510F7003611090486002800C6119A097512170806115A04A610A9016611DA0DD,
  0x510B6122610E9039600171236118A08551117009611490FD610980F0611CA0CB,
  0x510F70056112908161078010611AA0A7512171026116A05D610C9021611EA0EF,
  0x510B611F610D9033600071066117A07751117008611390F261088040611BA0C2,
  0x510F7004611090596002800E6119A09F512170FF6115A054610A901C611DA0E6,
  0x510B6122610E9041600171246118A08E5111700A6114A03461098120611CA0D5,
  0x510F70066112909061078013611AA0B0512171036116A066610C9026611EA104,
  0x510B611F610D9027600071056117A06951117007611390C061088018611BA0B4,
  0x510F7003611090426002800B6119A092512170806115A03B610A9012611DA0D8,
  0x510B6122610E9035600171236118A07B51117009611490F461098060611CA0C5,
  0x510F7005611290706107800F611AA0A2512171026116A057610C901D611EA0E9,
  0x510B611F610D902C600071066117A07251117008611390E061088020611BA0BC,
  0x510F7004611090496002800D6119A09A512170FF6115A04D610A9017611DA0E1,
  0x510B6122610E903C600171246118A0895111700A6114A02B610980FE611CA0CF,
  0x510F70066112908261078011611AA0AA512171036116A061610C9022611EA0F6,
  0x510B611F610D9029600071056117A06D51117007611390CC61088019611BA0B8,
  0x510F7003611090446002800C6119A096512170806115A047610A9015611DA0DC,
  0x510B6122610E9038600171236118A08351117009611490FC610980F0611CA0CA,
  0x510F70056112907F61078010611AA0A6512171026116A05C610C901F611EA0ED,
  0x510B611F610D9031600071066117A07651117008611390F161088040611BA0C1,
  0x510F7004611090516002800E6119A09E512170FF6115A053610A901B611DA0E5,
  0x510B6122610E903F600171246118A08D5111700A6114A03261098120611CA0D4,
  0x510F70066112908861078013611AA0AF512171036116A065610C9025611EA0FB,
  0x510B611F610D9028600071056117A06B51117007611390C661088018611BA0B6,
  0x510F7003611090436002800B6119A094512170806115A045610A9014611DA0DA,
  0x510B6122610E9037600171236118A07D51117009611490F861098060611CA0C8,
  0x510F7005611290786107800F611AA0A4512171026116A05A610C901E611EA0EB,
  0x510B611F610D9030600071066117A07451117008611390EE61088020611BA0BE,
  0x510F7004611090506002800D6119A09C512170FF6115A04F610A901A611DA0E3,
  0x510B6122610E903E600171246118A08B5111700A6114A02E610980FE611CA0D2,
  0x510F70066112908461078011611AA0AD512171036116A063610C9024611EA0F9,
  0x510B611F610D902A600071056117A06F51117007611390D061088019611BA0BA,
  0x510F7003611090486002800C6119A098512170806115A04B610A9016611DA0DE,
  0x510B6122610E9039600171236118A08651117009611490FD610980F0611CA0CD,
  0x510F70056112908161078010611AA0A8512171026116A05E610C9021611EA0F3,
  0x510B611F610D9033600071066117A07951117008611390F261088040611BA0C3,
  0x510F7004611090596002800E6119A0A0512170FF6115A055610A901C611DA0E7,
  0x510B6122610E9041600171246118A08F5111700A6114A03661098120611CA0D6]

/-- The rows of `HuffTableLEC`.  A code of at most ten bits is found by the low ten bits of the
index, so the table repeats itself every 1024 entries; only the last entry of each block, that of
the longer codes, is not the same in all of them. -/
def huffRowsLEC : List ℕ :=
  [0xB0B2, 0xD0AB, 0xB0B2, 0xD101, 0xB0B2, 0xD100, 0xB0B2, 0xD125].flatMap fun longCode =>
    huffBlockLEC ++ [0x510F70066112909061078013611AA0B1512171036116A067610C9026611E0000 + longCode]

/-- The rows of `HuffTableLOM`: two in turn, of which the second alternates, but for the last entry,
that of the longer codes. -/
def huffRowsLOM : List ℕ :=
  [(0x700D, 0x8012, 0x7010, 0x9018), (0x700E, 0x9013, 0x800F, 0x901C),
    (0x700D, 0x8015, 0x7010, 0x901A), (0x700E, 0x9016, 0x8011, 0x901E),
    (0x700D, 0x8012, 0x7010, 0x9019), (0x700E, 0x9014, 0x800F, 0x901D),
    (0x700D, 0x8015, 0x7010, 0x901B), (0x700E, 0x9017, 0x8011, 0x901F)].flatMap fun (a, b, c, d) =>
    [0x2001400030024008200140053004500A20014003300250072001400630040000 + a,
      0x2001400030024008200140053004600B20014003300250092001400630040000 + b,
      0x2001400030024008200140053004500A20014003300250072001400630040000 + c,
      0x2001400030024008200140053004600C20014003300250092001400630040000 + d]

/-- `HuffTableLEC` as one number. -/
def huffPackedLEC : ℕ := packRows 16 huffRowsLEC

/-- `HuffTableLOM` as one number. -/
def huffPackedLOM : ℕ := packRows 16 huffRowsLOM

/-- `HuffTableLEC`. -/
def huffTableLEC (i : ℕ) : ℕ := packedEntry 16 huffPackedLEC 8192 i

/-- `HuffTableLOM`. -/
def huffTableLOM (i : ℕ) : ℕ := packedEntry 16 huffPackedLOM 512 i

/-- `HuffTableMask`. -/
def huffTableMask : List ℕ := [
  0x11, 0x9E, 0xA1, 0x00, 0x00, 0x01, 0x00, 0x03, 0x00, 0x07, 0x00, 0x0F, 0x00,
  0x1F, 0x00, 0x3F, 0x00, 0x7F, 0x00, 0xFF, 0x00, 0xFF, 0x01, 0xFF, 0x03, 0xFF,
  0x07, 0xFF, 0x0F, 0xFF, 0x1F, 0xFF, 0x3F, 0xFF, 0x7F, 0xFF, 0xFF, 0x00, 0x00]

/-! ## The sender's codes -/

/-- The rows of `HuffLengthLEC`, a digit for each byte. -/
def huffLengthRowsLEC : List ℕ := [
  0x6667777777788888, 0x8898999988999999, 0x899A9999999A9AAA, 0x99A9A9A999AA9A99,
  0x89999AAA99AAAAAA, 0x99AAAAAAA9AAAAAA, 0x8AAAAAAAAAAAAAAA, 0x9AAAAAAA9AAAAAA9,
  0x799A9AAA9AAAAAAA, 0x9AAAAAAAAAAAAAAA, 0xAAAAAAAAAAADAAAA, 0xAABAAAAAAAAAAAAA,
  0x9AAAAA9AAAAA9AAA, 0x9AAAAAAAAAAAAAAA, 0x9AAAAAAAAAAAAA9A, 0x899A9AAA9AAA9987,
  0xDD77A77666656665, 0x6566666666666666, 0x85677D0000000000]

/-- The rows of `HuffCodeLEC`, two bytes a code. -/
def huffCodeRowsLEC : List ℕ := [
  0x04002400140011005100310071000900,
  0x490029006900150095005500D5003500,
  0xB50075001D00F5001D019D009D015D00,
  0x0D008D005D01DD00DD013D003D01BD00,
  0x4D00BD017D006B007D01FD00FD010300,
  0x0301830083016B0243006B016B03EB00,
  0x4301C300EB02C301EB012300EB032301,
  0xA300A3011B001B0263001B016301E300,
  0xCD00E3011300130193001B039B009B02,
  0x930153009B019B035B005B025B015B03,
  0x5301D300DB00DB02DB01DB033B003B02,
  0x3B01D3013B03BB00BB02BB01BB037B00,
  0x2D007B027B017B03FB00FB02FB01FB03,
  0x07000702070107038700870287018703,
  0x33004700470247014703C700C702C701,
  0x3301C7032700270227012703A700B300,
  0x1900B3017300A7027301A701A7036700,
  0xF300670267016703E700E702E701E703,
  0xF3011700170217011703970097029701,
  0x97035700570257015703D700D702D701,
  0xD7033700370237013703B700B702B701,
  0xB70377007702FF0777017703F700F702,
  0xF701F703FF030F000F020F010F038F00,
  0x8F028F018F034F004F024F014F03CF00,
  0x0B00CF02CF01CF032F002F020B012F01,
  0x2F03AF00AF02AF018B00AF036F006F02,
  0x8B016F016F03EF00EF02EF01EF031F00,
  0x1F021F011F039F009F029F019F035F00,
  0x4B005F025F015F03DF00DF02DF01DF03,
  0x3F003F023F013F03BF00BF024B01BF01,
  0xAD00CB00CB01BF032B007F007F027F01,
  0x2B017F03FF00FF02AB00AB016D005900,
  0xFF17FF0F39007900FF01050045003400,
  0x0C002C001C0000003C00020022001000,
  0x1200080032000A002A001A003A000600,
  0x2600160036000E002E001E003E000100,
  0xED001800210025006500FF1F00000000]

/-- `HuffLengthLEC` as one number. -/
def huffLengthPackedLEC : ℕ := packRows 4 huffLengthRowsLEC

/-- `HuffCodeLEC` as one number. -/
def huffCodePackedLEC : ℕ := packRows 8 huffCodeRowsLEC

/-- `HuffLengthLEC`. -/
def huffLengthLEC (i : ℕ) : ℕ := packedEntry 4 huffLengthPackedLEC 304 i

/-- `HuffCodeLEC`. -/
def huffCodeLEC (i : ℕ) : ℕ := packedEntry 8 huffCodePackedLEC 592 i

/-- `HuffLengthLOM`. -/
def huffLengthLOM : List ℕ := [
  4, 2, 3, 4, 3, 4, 4, 5, 4, 5, 5, 6, 6, 7, 7, 8,
  7, 8, 8, 9, 9, 8, 9, 9, 9, 9, 9, 9, 9, 9, 9, 9]

/-- `HuffCodeLOM`. -/
def huffCodeLOM : List ℕ := [
  0x0001, 0x0000, 0x0002, 0x0009, 0x0006, 0x0005, 0x000D, 0x000B,
  0x0003, 0x001B, 0x0007, 0x0017, 0x0037, 0x000F, 0x004F, 0x006F,
  0x002F, 0x00EF, 0x001F, 0x005F, 0x015F, 0x009F, 0x00DF, 0x01DF,
  0x003F, 0x013F, 0x00BF, 0x01BF, 0x007F, 0x017F, 0x00FF, 0x01FF]

/-! ## Classes of offsets and lengths -/

/-- `CopyOffsetBitsLUT`. -/
def copyOffsetBits : List ℕ := [
  0, 0, 0, 0, 1, 1, 2, 2, 3, 3, 4, 4, 5, 5, 6, 6,
  7, 7, 8, 8, 9, 9, 10, 10, 11, 11, 12, 12, 13, 13, 14, 14]

/-- `CopyOffsetBaseLUT`. -/
def copyOffsetBase : List ℕ := [
  1, 2, 3, 4, 5, 7, 9, 13, 17, 25, 33, 49, 65, 97, 129, 193,
  257, 385, 513, 769, 1025, 1537, 2049, 3073, 4097, 6145, 8193, 12289, 16385, 24577, 32769, 49153]

/-- `LOMBitsLUT`. -/
def lomBits : List ℕ := [
  0, 0, 0, 0, 0, 0, 0, 0, 1, 1, 1, 1, 2, 2, 2,
  2, 3, 3, 3, 3, 4, 4, 4, 4, 6, 6, 8, 8, 14, 14]

/-- `LOMBaseLUT`. -/
def lomBase : List ℕ := [
  2, 3, 4, 5, 6, 7, 8, 9, 10, 12, 14, 16, 18, 22, 26,
  30, 34, 42, 50, 58, 66, 82, 98, 114, 130, 194, 258, 514, 2, 2]

/-! ## Words, codes and classes -/

/-- `get_word`. -/
def getWord (data : ℕ → ℕ) (i : ℕ) : ℕ := data i ||| data (i + 1) <<< 8

/-- The code of a symbol in the literal and offset code, and its length. -/
def codeLEC (indexLEC : ℕ) : Field := (getWord huffCodeLEC (2 * indexLEC), huffLengthLEC indexLEC)

/-- The code of a symbol in the length code, and its length. -/
def codeLOM (indexLOM : ℕ) : Field := (huffCodeLOM.getD indexLOM 0, huffLengthLOM.getD indexLOM 0)

/-- The tables that `ncrush_generate_tables` fills in the context. -/
structure Tables where
  huffTableCopyOffset : List ℕ
  huffTableLOM : List ℕ

/-- Every class from `first` on, as often as it has members. -/
def members (bits : ℕ → ℕ) (first count : ℕ) : List ℕ :=
  (List.range' first count).flatMap fun i => List.replicate (2 ^ bits i) i

/-- `context->HuffTableLOM`, from its third entry on. -/
def lomMembers : List ℕ := members (fun i => lomBits.getD i 0) 0 28

/-- The first part of `context->HuffTableCopyOffset`: offsets one by one. -/
def nearMembers : List ℕ := members (fun i => copyOffsetBits.getD i 0) 0 16

def farMembers : List ℕ := members (fun i => copyOffsetBits.getD i 0 - 7) 16 16

/-- `ncrush_generate_tables`: `none` where a length of match is not given back by its class, or the
table of offsets does not fit.  The entries that no loop fills are zero. -/
def generateTables : Option Tables :=
  let huffTableLOM := [0, 0] ++ lomMembers
  let lengthOk (k : ℕ) : Bool :=
    let i := if k - 2 < 768 then huffTableLOM.getD k 0 else 28
    i < 30 ∧ ((2 ^ lomBits.getD i 0 - 1) &&& (k - 2)) + lomBase.getD i 0 = k
  let k := nearMembers.length / 128
  if ¬ (List.range' 2 4094).all lengthOk then none
  else if k + farMembers.length + 256 > 1024 then none
  else some ⟨[0, 0] ++ nearMembers ++ List.replicate (256 + k - nearMembers.length) 0 ++ farMembers,
    huffTableLOM⟩

/-! ## Every code is looked up as its symbol -/

theorem entry_parts (n : ℕ) (hs : s < 4096) :
    (n <<< 12 ||| s) &&& 0xFFF = s ∧ (n <<< 12 ||| s) >>> 12 = n := by
  rw [← shiftLeft_add_eq_or_of_lt (i := 12) hs, shiftLeft_eq, shiftRight_eq_div_pow,
    and_two_pow_sub_one_eq_mod _ 12]
  constructor
  · rw [mul_add_mod_self_right, mod_eq_of_lt hs]
  · rw [mul_comm, mul_add_div (by omega), div_eq_of_lt hs, add_zero]

/-- The code of a symbol fits the index of the table, and every way to fill it up is an entry of
the symbol. -/
theorem codeLEC_check : ∀ s < 294, 5 ≤ (codeLEC s).2 ∧ (codeLEC s).2 ≤ 13 ∧ Fits (codeLEC s) ∧
    ∀ j < 2 ^ (13 - (codeLEC s).2), huffTableLEC ((codeLEC s).1 + 2 ^ (codeLEC s).2 * j) =
      (codeLEC s).2 <<< 12 ||| s := by
  unfold Fits
  decide +kernel

theorem codeLOM_check : ∀ s < 32, (codeLOM s).2 ≤ 9 ∧ Fits (codeLOM s) ∧
    ∀ j < 2 ^ (9 - (codeLOM s).2), huffTableLOM ((codeLOM s).1 + 2 ^ (codeLOM s).2 * j) =
      (codeLOM s).2 <<< 12 ||| s := by
  unfold Fits
  decide +kernel

/-- **The literal and offset code is decoded by its table.** -/
theorem decodes_LEC (hs : s < 294) :
    Decodes huffTableLEC 13 (codeLEC s) ((codeLEC s).2 <<< 12 ||| s) := by
  obtain ⟨-, hlen, -, hall⟩ := codeLEC_check s hs
  exact decodes_of_forall hlen hall

/-- **The length code is decoded by its table.** -/
theorem decodes_LOM (hs : s < 32) :
    Decodes huffTableLOM 9 (codeLOM s) ((codeLOM s).2 <<< 12 ||| s) := by
  obtain ⟨hlen, -, hall⟩ := codeLOM_check s hs
  exact decodes_of_forall hlen hall

theorem getWord_huffTableMask : ∀ n < 17,
    getWord (fun i => huffTableMask.getD i 0) (2 * n + 3) = 2 ^ n - 1 := by
  decide

/-! ## The class of a value and its low bits give the value -/

theorem lomMembers_check : ∀ p ∈ lomMembers.zipIdx,
    p.1 < 28 ∧ p.2 % 2 ^ lomBits.getD p.1 0 + lomBase.getD p.1 0 = p.2 + 2 := by
  decide +kernel

theorem nearMembers_check : ∀ p ∈ nearMembers.zipIdx,
    p.1 < 32 ∧ p.2 % 2 ^ copyOffsetBits.getD p.1 0 + copyOffsetBase.getD p.1 0 = p.2 + 1 := by
  decide +kernel

theorem farMembers_check : ∀ p ∈ farMembers.zipIdx 2, p.1 < 32 ∧ 7 ≤ copyOffsetBits.getD p.1 0 ∧
      128 * p.2 % 2 ^ copyOffsetBits.getD p.1 0 + copyOffsetBase.getD p.1 0 = 128 * p.2 + 1 := by
  decide +kernel

theorem length_members : lomMembers.length = 768 ∧ nearMembers.length = 256 ∧
    farMembers.length = 510 := by
  decide +kernel

theorem getD_mem_zipIdx {l : List ℕ} (hi : i < l.length) (k : ℕ) :
    (l.getD i 0, k + i) ∈ l.zipIdx k := by
  rw [List.mk_mem_zipIdx_iff_le_and_getElem?_sub]
  refine ⟨le_add_right k i, ?_⟩
  rw [Nat.add_sub_cancel_left, List.getElem?_eq_getElem hi, getD_eq_getElem _ _ hi]

def tables : Tables where
  huffTableCopyOffset := [0, 0] ++ nearMembers ++ List.replicate 2 0 ++ farMembers
  huffTableLOM := [0, 0] ++ lomMembers

/-- **The class of a length.** -/
theorem lomClass_spec {len : ℕ} (h2 : 2 ≤ len) (hlen : len < 770) :
    tables.huffTableLOM.getD len 0 < 28 ∧
      (len - 2) % 2 ^ lomBits.getD (tables.huffTableLOM.getD len 0) 0 +
        lomBase.getD (tables.huffTableLOM.getD len 0) 0 = len := by
  have hlm := length_members.1
  have hget : tables.huffTableLOM.getD len 0 = lomMembers.getD (len - 2) 0 := by
    unfold tables
    rw [getD_append_right _ _ _ _ (by simpa using h2)]
    rfl
  have hmem := getD_mem_zipIdx (l := lomMembers) (i := len - 2) (by omega) 0
  obtain ⟨hi, hval⟩ := lomMembers_check _ hmem
  rw [hget]
  simp only [zero_add] at hval
  exact ⟨hi, by omega⟩

/-- Where the class of a copy offset is looked up. -/
def copyOffsetSlot (copyOffset : ℕ) : ℕ :=
  (if copyOffset ≥ 256 then (copyOffset >>> 7) + 256 else copyOffset) + 2

/-- **The class of a copy offset.** -/
theorem copyOffsetClass_spec {copyOffset : ℕ} (h : copyOffset < 65536) :
    tables.huffTableCopyOffset.getD (copyOffsetSlot copyOffset) 0 < 32 ∧
      copyOffset % 2 ^ copyOffsetBits.getD
          (tables.huffTableCopyOffset.getD (copyOffsetSlot copyOffset) 0) 0 +
        copyOffsetBase.getD (tables.huffTableCopyOffset.getD (copyOffsetSlot copyOffset) 0) 0 =
        copyOffset + 1 := by
  obtain ⟨-, hnear, hfar⟩ := length_members
  unfold copyOffsetSlot
  by_cases hc : copyOffset ≥ 256
  · -- by 128: the lower seven bits are low bits of the class as well
    obtain ⟨q, r, hr, rfl⟩ : ∃ q r, r < 128 ∧ copyOffset = 128 * q + r :=
      ⟨copyOffset / 128, copyOffset % 128, mod_lt _ (by omega), (div_add_mod _ _).symm⟩
    have hq : (128 * q + r) >>> 7 = q := by
      rw [shiftRight_eq_div_pow]
      omega
    have hget : tables.huffTableCopyOffset.getD (q + 256 + 2) 0 = farMembers.getD (q - 2) 0 := by
      have hlen : ([0, 0] ++ nearMembers ++ replicate 2 0).length = 260 := by
        simp [hnear]
      unfold tables
      rw [getD_append_right _ _ _ _ (by omega), hlen, show q + 256 + 2 - 260 = q - 2 by omega]
    have hmem := getD_mem_zipIdx (l := farMembers) (i := q - 2) (by omega) 2
    obtain ⟨hi, hbits, hval⟩ := farMembers_check _ hmem
    rw [if_pos hc, hq, hget]
    simp only [show 2 + (q - 2) = q by omega] at hval
    refine ⟨hi, ?_⟩
    obtain ⟨b, hb⟩ : ∃ b, copyOffsetBits.getD (farMembers.getD (q - 2) 0) 0 = 7 + b :=
      ⟨_, (Nat.add_sub_cancel' hbits).symm⟩
    rw [hb] at hval ⊢
    have hsplit : (128 * q + r) % 2 ^ (7 + b) = 128 * q % 2 ^ (7 + b) + r := by
      rw [pow_add, show (2 : ℕ) ^ 7 = 128 from rfl, mod_mul, mod_mul,
        show (128 * q + r) / 128 = q by omega, show 128 * q / 128 = q by omega]
      omega
    rw [hsplit]
    omega
  · have hget : tables.huffTableCopyOffset.getD (copyOffset + 2) 0 =
        nearMembers.getD copyOffset 0 := by
      unfold tables
      rw [append_assoc, append_assoc, getD_append_right _ _ _ _ (by simp),
        getD_append _ _ _ _ (by simp [hnear]; omega)]
      rfl
    have hmem := getD_mem_zipIdx (l := nearMembers) (i := copyOffset) (by omega) 0
    obtain ⟨hi, hval⟩ := nearMembers_check _ hmem
    rw [if_neg hc, hget]
    simp only [zero_add] at hval
    exact ⟨hi, hval⟩

/-- **The tables are generated**: every length is given back by its class. -/
theorem generateTables_eq : generateTables = some tables := by
  obtain ⟨-, hnear, hfar⟩ := length_members
  unfold generateTables
  rw [if_neg, if_neg]
  · rw [hnear]
    rfl
  · rw [hnear, hfar]
    decide
  rw [not_not, all_eq_true]
  intro k hk
  rw [mem_range'_1] at hk
  rw [decide_eq_true_iff, Nat.and_comm, and_two_pow_sub_one_eq_mod]
  by_cases hlen : k - 2 < 768
  · obtain ⟨hi, hval⟩ := lomClass_spec hk.1 (by omega)
    rw [if_pos hlen]
    exact ⟨lt_trans hi (by omega), hval⟩
  · rw [if_neg hlen]
    change 28 < 30 ∧ (k - 2) % 2 ^ 14 + 2 = k
    omega

end WBFreeRDP.Ncrush
