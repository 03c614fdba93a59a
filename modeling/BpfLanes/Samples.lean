import BpfLanes.Dump
import BpfLanes.Fields

/-! # Sample programs

Packet programs that benches work on. The text of each instruction is the one that a
disassembler lists for its word.
-/

namespace BpfLanes
namespace Listing

/-- Operators that change a register, by the upper half of the opcode. -/
def operators : List (Int × String) :=
  [(0, "+="), (1, "-="), (4, "|="), (5, "&="), (6, "<<="), (7, ">>="), (10, "^="), (11, "="),
   (12, "s>>=")]

/-- Tests of conditional jumps, by the upper half of the opcode. -/
def tests : List (Int × String) :=
  [(1, "=="), (2, ">"), (5, "!="), (6, "s>")]

/-- Widths of memory accesses, by the two bits above the class of the opcode. -/
def widths : List (Int × String) :=
  [(0, "u32"), (1, "u16"), (2, "u8"), (3, "u64")]

def register (r : Int) : String :=
  "r" ++ toString r

/-- A number with its sign, and a blank after the sign of an address. -/
def signed (blank : String) (x : Int) : String :=
  (if x < 0 then "-" else "+") ++ blank ++ toString x.natAbs

def operand (f : Fields) : String :=
  if f.opcode / 8 % 2 == 1 then register f.src else toString (f.immediate.bmod 0x100000000)

def access (f : Fields) (base : Int) : String :=
  "*(" ++ (widths.lookup (f.opcode / 8 % 4)).getD "" ++ " *)(" ++ register base ++ " "
    ++ signed " " f.offset ++ ")"

def branch (f : Fields) : String :=
  match f.opcode / 16 with
  | 0 => "goto " ++ signed "" f.offset ++ " "
  | 8 => "call " ++ toString f.immediate
  | 9 => "exit"
  | test => "if " ++ register f.dst ++ " " ++ (tests.lookup test).getD "" ++ " " ++ operand f
      ++ " goto " ++ signed "" f.offset ++ " "

/-- The text of an instruction, by the class of its opcode. -/
def text (f : Fields) : String :=
  match f.opcode % 8 with
  | 0 => if f.opcode == 0 then "NOP" else register f.dst ++ " = " ++ toString f.immediate ++ " ll"
  | 1 => register f.dst ++ " = " ++ access f f.src
  | 3 => access f f.dst ++ " = " ++ register f.src
  | 4 => register f.dst ++ " = be" ++ toString f.immediate ++ " " ++ register f.dst
  | 5 => branch f
  | _ => register f.dst ++ " " ++ (operators.lookup (f.opcode / 16)).getD "" ++ " " ++ operand f

end Listing

/-- A program with the text of each of its instructions. -/
structure Sample where
  name : String
  code : List (Word × String)
  deriving Repr, Inhabited

namespace Sample

/-- The word whose first bytes are given in hexadecimal; the other bytes are zero. -/
def wordOf (digits : String) : Word :=
  let read := digits.toList.filterMap Dump.hexDigit?
  (read.foldl (fun w d => 16 * w + d) 0 : Nat) * Word.weight (64 - 4 * read.length)

def ofText (name text : String) : Sample where
  name := name
  code := (((text.splitOn "\n").flatMap (·.splitOn " ")).filter (· ≠ "")).map fun digits =>
    let w := wordOf digits
    (w, ((Fields.decode w).map Listing.text).toOption.getD "")

def words (s : Sample) : List Word :=
  s.code.map Prod.fst

def texts (s : Sample) : List String :=
  s.code.map Prod.snd

end Sample

namespace Samples

/-- Counts packets by protocol and drops them. -/
def drop : Sample := .ofText "xdp1"
  "611204 6111 bf13 070300000e 2d2336 71130c 71140d 6704000008 4f34 1504020088a8 b70300000e
   5504050081 bf13 0703000012 2d232c b703000012 691410 bf45 57050000ffff 1505010088a8 5505090081
   bf35 0705000004 bf14 0f54 2d2421 bf14 0f34 694402 bf53 57040000ffff 1504080086dd 55040f0008
   0f31 b703 bf14 0704000014 2d2408 711309 050006 0f31 b703 bf14 0704000028 2d2401 711306
   633afcff 050002 b701 631afcff bfa2 07020000fcffffff 1801 00 8500000001 150003 7901 0701000001
   7b10 b700000001 95"

/-- Counts packets by protocol and sends them back with their addresses swapped. -/
def reflect : Sample := .ofText "xdp2"
  "b706000001 611204 6117 bf71 070100000e 2d2146 71710c 71730d 6703000008 4f13 1503020088a8
   b70100000e 5503050081 bf71 0701000012 2d213c b701000012 697310 bf34 57040000ffff 1504010088a8
   5504090081 bf14 0704000004 bf73 0f43 2d2331 bf73 0f13 693302 bf41 57030000ffff 1503090086dd
   5503100008 bf73 0f13 b701 bf34 0704000014 2d240b 713109 050009 bf73 0f13 b701 bf34 0704000028
   2d2403 713106 050001 b701 631afcff bfa2 07020000fcffffff 1801 00 8500000001 150003 7901
   0701000001 7b10 61a1fcff 55010d0011 6971 697206 6b27 697208 697302 6b3708 6b2702 69720a
   697304 6b370a 6b2704 6b1706 b706000003 bf60 95"

/-- Counts packets by receive queue. -/
def queueInfo : Sample := .ofText "xdp_rxq_info"
  "bf18 6181 7b1af0ff 618104 7b1ae8ff b706 636afcff bfa2 07020000fcffffff 1801 00 8500000001
   bf09 150941 7991 0701000001 7b19 61870c bfa2 07020000fcffffff 1801 00 8500000001 150037
   610104 1d1704 799108 0701000001 7b1908 050031 bf07 618110 b702000040 2d1201 b701000040
   631afcff bfa2 07020000fcffffff 1801 00 8500000001 bf75 150024 7901 0701000001 7b10 61a1fcff
   5501030040 790108 0701000001 7b1008 615108 bf12 5702000003 150217 79a2f0ff 070200000e
   79a3e8ff 2d3214 79a2f0ff 71220c b703000006 2d2310 5701000002 15010d 79a4f0ff 6941 694206 6b24
   694208 694302 6b3408 6b2402 69420a 694304 6b340a 6b2404 6b1406 6156 bf60 95"

/-- Answers packets that are too long with an error message. -/
def adjustTail : Sample := .ofText "xdp_adjust_tail"
  "bf16 b707000001 616104 6162 bf23 070300000e 2d136c 71230c 71240d 6704000008 4f34 b707000002
   5504660008 1f21 6701000020 c701000020 b70200005902 6d1261 b702000062 1f12 bf61 8500000041
   6700000020 7700000020 55005a bf61 18020000e4ffffff 00 850000002c 6700000020 7700000020
   b707000001 550052 616104 6166 bf62 070200007e b707000001 2d124c 716121 73160b 716120 73160a
   71611f 731609 71611e 731608 71611d 731607 71611c 731606 716125 731603 716124 731602 716123
   731601 716122 7316 716127 731605 716126 731604 716129 73160d 716128 73160c b70100000304
   631622 b7010000024a 6b1628 bf63 0703000022 b707 b701 b702 b70400005c b705 850000001c
   b701000045000070 63160e b70100004001 631616 616136 63161e 61613a 63161a bf01 7701000010 0f01
   a7010000ffffffff 6b1624 bf63 070300000e b701 b702 b704000014 b705 850000001c bf01 7701000010
   0f01 a7010000ffffffff 6b1618 7b7af8ff bfa2 07020000f8ffffff 1801 00 8500000001 150003 7901
   0701000001 7b10 b707000003 bf70 95"

/-- Sends a packet on to the port that a table names for it. -/
def redirectMap : Sample := .ofText "xdp_redirect_map"
  "611204 6116 b701 631afcff b700000001 bf61 070100000e 2d211a bfa2 07020000fcffffff 1801 00
   8500000001 150003 7901 0701000001 7b10 6961 696206 6b26 696208 696302 6b3608 6b2602 69620a
   696304 6b360a 6b2604 6b1606 1801 00 b702 b703 8500000033 95 b700000002 95"

/-- Forwards packets by their destination address. -/
def router : Sample := .ofText "xdp_router_ipv4"
  "611204 6117 bf73 070300000e b701000001 2d236f 71710c 71730d 6703000008 4f13 1503020088a8
   b70400000e 5503060081 bf73 0703000012 b701000001 2d2364 b704000012 697310 b701000002
   57030000ffff 15035f000806 55035b0008 bf71 0f41 b703 633af0ff bf14 0704000014 2d2403 611210
   632af0ff 711309 633af4ff bfa2 07020000f0ffffff 1801 00 8500000001 bf06 150607 796118 150105
   bf68 0708000018 7961 bf60 550123 b701000020 631af8ff 61a1f0ff bf12 7702000008 732afdff bf12
   7702000010 732afeff 731afcff 7701000018 731affff bfa2 07020000f8ffffff 1801 00 8500000001
   bf06 150631 bfa2 07020000f0ffffff 1801 00 8500000001 bf68 0708000008 550008 616118 150127
   631af0ff bfa2 07020000f0ffffff 1801 00 8500000001 b701000001 150020 616610 690104 6b1704
   690102 6b1702 6901 6b17 698102 6b1708 6981 6b1706 698104 6b170a bfa2 07020000f4ffffff 1801 00
   8500000001 150003 7901 0701000001 7b10 1801 00 bf62 b703 8500000033 bf01 050003 b701 631af4ff
   b701000001 bf10 95"

end Samples
end BpfLanes
