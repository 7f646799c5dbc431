import RebuildTheWheel.Data.BitString
import RebuildTheWheel.Data.ByteRegion

namespace RebuildTheWheel.Nginx

open Data Data.Ascii

/-! `ngx_http_v2_huff_encode` with a 64-bit `ngx_uint_t`. -/

structure HuffEncodeCode where
  code : UInt32
  len : UInt32
  deriving DecidableEq

inductive HuffFault where
  /-- A shift by the width of the word or more -/
  | shift
  | outside
  deriving DecidableEq

namespace HuffEncode

def encodeTable : List HuffEncodeCode :=
  [⟨0x00001ff8, 13⟩, ⟨0x007fffd8, 23⟩, ⟨0x0fffffe2, 28⟩, ⟨0x0fffffe3, 28⟩,
    ⟨0x0fffffe4, 28⟩, ⟨0x0fffffe5, 28⟩, ⟨0x0fffffe6, 28⟩, ⟨0x0fffffe7, 28⟩,
    ⟨0x0fffffe8, 28⟩, ⟨0x00ffffea, 24⟩, ⟨0x3ffffffc, 30⟩, ⟨0x0fffffe9, 28⟩,
    ⟨0x0fffffea, 28⟩, ⟨0x3ffffffd, 30⟩, ⟨0x0fffffeb, 28⟩, ⟨0x0fffffec, 28⟩,
    ⟨0x0fffffed, 28⟩, ⟨0x0fffffee, 28⟩, ⟨0x0fffffef, 28⟩, ⟨0x0ffffff0, 28⟩,
    ⟨0x0ffffff1, 28⟩, ⟨0x0ffffff2, 28⟩, ⟨0x3ffffffe, 30⟩, ⟨0x0ffffff3, 28⟩,
    ⟨0x0ffffff4, 28⟩, ⟨0x0ffffff5, 28⟩, ⟨0x0ffffff6, 28⟩, ⟨0x0ffffff7, 28⟩,
    ⟨0x0ffffff8, 28⟩, ⟨0x0ffffff9, 28⟩, ⟨0x0ffffffa, 28⟩, ⟨0x0ffffffb, 28⟩,
    ⟨0x00000014, 6⟩, ⟨0x000003f8, 10⟩, ⟨0x000003f9, 10⟩, ⟨0x00000ffa, 12⟩,
    ⟨0x00001ff9, 13⟩, ⟨0x00000015, 6⟩, ⟨0x000000f8, 8⟩, ⟨0x000007fa, 11⟩,
    ⟨0x000003fa, 10⟩, ⟨0x000003fb, 10⟩, ⟨0x000000f9, 8⟩, ⟨0x000007fb, 11⟩,
    ⟨0x000000fa, 8⟩, ⟨0x00000016, 6⟩, ⟨0x00000017, 6⟩, ⟨0x00000018, 6⟩,
    ⟨0x00000000, 5⟩, ⟨0x00000001, 5⟩, ⟨0x00000002, 5⟩, ⟨0x00000019, 6⟩,
    ⟨0x0000001a, 6⟩, ⟨0x0000001b, 6⟩, ⟨0x0000001c, 6⟩, ⟨0x0000001d, 6⟩,
    ⟨0x0000001e, 6⟩, ⟨0x0000001f, 6⟩, ⟨0x0000005c, 7⟩, ⟨0x000000fb, 8⟩,
    ⟨0x00007ffc, 15⟩, ⟨0x00000020, 6⟩, ⟨0x00000ffb, 12⟩, ⟨0x000003fc, 10⟩,
    ⟨0x00001ffa, 13⟩, ⟨0x00000021, 6⟩, ⟨0x0000005d, 7⟩, ⟨0x0000005e, 7⟩,
    ⟨0x0000005f, 7⟩, ⟨0x00000060, 7⟩, ⟨0x00000061, 7⟩, ⟨0x00000062, 7⟩,
    ⟨0x00000063, 7⟩, ⟨0x00000064, 7⟩, ⟨0x00000065, 7⟩, ⟨0x00000066, 7⟩,
    ⟨0x00000067, 7⟩, ⟨0x00000068, 7⟩, ⟨0x00000069, 7⟩, ⟨0x0000006a, 7⟩,
    ⟨0x0000006b, 7⟩, ⟨0x0000006c, 7⟩, ⟨0x0000006d, 7⟩, ⟨0x0000006e, 7⟩,
    ⟨0x0000006f, 7⟩, ⟨0x00000070, 7⟩, ⟨0x00000071, 7⟩, ⟨0x00000072, 7⟩,
    ⟨0x000000fc, 8⟩, ⟨0x00000073, 7⟩, ⟨0x000000fd, 8⟩, ⟨0x00001ffb, 13⟩,
    ⟨0x0007fff0, 19⟩, ⟨0x00001ffc, 13⟩, ⟨0x00003ffc, 14⟩, ⟨0x00000022, 6⟩,
    ⟨0x00007ffd, 15⟩, ⟨0x00000003, 5⟩, ⟨0x00000023, 6⟩, ⟨0x00000004, 5⟩,
    ⟨0x00000024, 6⟩, ⟨0x00000005, 5⟩, ⟨0x00000025, 6⟩, ⟨0x00000026, 6⟩,
    ⟨0x00000027, 6⟩, ⟨0x00000006, 5⟩, ⟨0x00000074, 7⟩, ⟨0x00000075, 7⟩,
    ⟨0x00000028, 6⟩, ⟨0x00000029, 6⟩, ⟨0x0000002a, 6⟩, ⟨0x00000007, 5⟩,
    ⟨0x0000002b, 6⟩, ⟨0x00000076, 7⟩, ⟨0x0000002c, 6⟩, ⟨0x00000008, 5⟩,
    ⟨0x00000009, 5⟩, ⟨0x0000002d, 6⟩, ⟨0x00000077, 7⟩, ⟨0x00000078, 7⟩,
    ⟨0x00000079, 7⟩, ⟨0x0000007a, 7⟩, ⟨0x0000007b, 7⟩, ⟨0x00007ffe, 15⟩,
    ⟨0x000007fc, 11⟩, ⟨0x00003ffd, 14⟩, ⟨0x00001ffd, 13⟩, ⟨0x0ffffffc, 28⟩,
    ⟨0x000fffe6, 20⟩, ⟨0x003fffd2, 22⟩, ⟨0x000fffe7, 20⟩, ⟨0x000fffe8, 20⟩,
    ⟨0x003fffd3, 22⟩, ⟨0x003fffd4, 22⟩, ⟨0x003fffd5, 22⟩, ⟨0x007fffd9, 23⟩,
    ⟨0x003fffd6, 22⟩, ⟨0x007fffda, 23⟩, ⟨0x007fffdb, 23⟩, ⟨0x007fffdc, 23⟩,
    ⟨0x007fffdd, 23⟩, ⟨0x007fffde, 23⟩, ⟨0x00ffffeb, 24⟩, ⟨0x007fffdf, 23⟩,
    ⟨0x00ffffec, 24⟩, ⟨0x00ffffed, 24⟩, ⟨0x003fffd7, 22⟩, ⟨0x007fffe0, 23⟩,
    ⟨0x00ffffee, 24⟩, ⟨0x007fffe1, 23⟩, ⟨0x007fffe2, 23⟩, ⟨0x007fffe3, 23⟩,
    ⟨0x007fffe4, 23⟩, ⟨0x001fffdc, 21⟩, ⟨0x003fffd8, 22⟩, ⟨0x007fffe5, 23⟩,
    ⟨0x003fffd9, 22⟩, ⟨0x007fffe6, 23⟩, ⟨0x007fffe7, 23⟩, ⟨0x00ffffef, 24⟩,
    ⟨0x003fffda, 22⟩, ⟨0x001fffdd, 21⟩, ⟨0x000fffe9, 20⟩, ⟨0x003fffdb, 22⟩,
    ⟨0x003fffdc, 22⟩, ⟨0x007fffe8, 23⟩, ⟨0x007fffe9, 23⟩, ⟨0x001fffde, 21⟩,
    ⟨0x007fffea, 23⟩, ⟨0x003fffdd, 22⟩, ⟨0x003fffde, 22⟩, ⟨0x00fffff0, 24⟩,
    ⟨0x001fffdf, 21⟩, ⟨0x003fffdf, 22⟩, ⟨0x007fffeb, 23⟩, ⟨0x007fffec, 23⟩,
    ⟨0x001fffe0, 21⟩, ⟨0x001fffe1, 21⟩, ⟨0x003fffe0, 22⟩, ⟨0x001fffe2, 21⟩,
    ⟨0x007fffed, 23⟩, ⟨0x003fffe1, 22⟩, ⟨0x007fffee, 23⟩, ⟨0x007fffef, 23⟩,
    ⟨0x000fffea, 20⟩, ⟨0x003fffe2, 22⟩, ⟨0x003fffe3, 22⟩, ⟨0x003fffe4, 22⟩,
    ⟨0x007ffff0, 23⟩, ⟨0x003fffe5, 22⟩, ⟨0x003fffe6, 22⟩, ⟨0x007ffff1, 23⟩,
    ⟨0x03ffffe0, 26⟩, ⟨0x03ffffe1, 26⟩, ⟨0x000fffeb, 20⟩, ⟨0x0007fff1, 19⟩,
    ⟨0x003fffe7, 22⟩, ⟨0x007ffff2, 23⟩, ⟨0x003fffe8, 22⟩, ⟨0x01ffffec, 25⟩,
    ⟨0x03ffffe2, 26⟩, ⟨0x03ffffe3, 26⟩, ⟨0x03ffffe4, 26⟩, ⟨0x07ffffde, 27⟩,
    ⟨0x07ffffdf, 27⟩, ⟨0x03ffffe5, 26⟩, ⟨0x00fffff1, 24⟩, ⟨0x01ffffed, 25⟩,
    ⟨0x0007fff2, 19⟩, ⟨0x001fffe3, 21⟩, ⟨0x03ffffe6, 26⟩, ⟨0x07ffffe0, 27⟩,
    ⟨0x07ffffe1, 27⟩, ⟨0x03ffffe7, 26⟩, ⟨0x07ffffe2, 27⟩, ⟨0x00fffff2, 24⟩,
    ⟨0x001fffe4, 21⟩, ⟨0x001fffe5, 21⟩, ⟨0x03ffffe8, 26⟩, ⟨0x03ffffe9, 26⟩,
    ⟨0x0ffffffd, 28⟩, ⟨0x07ffffe3, 27⟩, ⟨0x07ffffe4, 27⟩, ⟨0x07ffffe5, 27⟩,
    ⟨0x000fffec, 20⟩, ⟨0x00fffff3, 24⟩, ⟨0x000fffed, 20⟩, ⟨0x001fffe6, 21⟩,
    ⟨0x003fffe9, 22⟩, ⟨0x001fffe7, 21⟩, ⟨0x001fffe8, 21⟩, ⟨0x007ffff3, 23⟩,
    ⟨0x003fffea, 22⟩, ⟨0x003fffeb, 22⟩, ⟨0x01ffffee, 25⟩, ⟨0x01ffffef, 25⟩,
    ⟨0x00fffff4, 24⟩, ⟨0x00fffff5, 24⟩, ⟨0x03ffffea, 26⟩, ⟨0x007ffff4, 23⟩,
    ⟨0x03ffffeb, 26⟩, ⟨0x07ffffe6, 27⟩, ⟨0x03ffffec, 26⟩, ⟨0x03ffffed, 26⟩,
    ⟨0x07ffffe7, 27⟩, ⟨0x07ffffe8, 27⟩, ⟨0x07ffffe9, 27⟩, ⟨0x07ffffea, 27⟩,
    ⟨0x07ffffeb, 27⟩, ⟨0x0ffffffe, 28⟩, ⟨0x07ffffec, 27⟩, ⟨0x07ffffed, 27⟩,
    ⟨0x07ffffee, 27⟩, ⟨0x07ffffef, 27⟩, ⟨0x07fffff0, 27⟩, ⟨0x03ffffee, 26⟩]

/-- Same as above, but embeds lowercase transformation -/
def encodeTableLc : List HuffEncodeCode :=
  [⟨0x00001ff8, 13⟩, ⟨0x007fffd8, 23⟩, ⟨0x0fffffe2, 28⟩, ⟨0x0fffffe3, 28⟩,
    ⟨0x0fffffe4, 28⟩, ⟨0x0fffffe5, 28⟩, ⟨0x0fffffe6, 28⟩, ⟨0x0fffffe7, 28⟩,
    ⟨0x0fffffe8, 28⟩, ⟨0x00ffffea, 24⟩, ⟨0x3ffffffc, 30⟩, ⟨0x0fffffe9, 28⟩,
    ⟨0x0fffffea, 28⟩, ⟨0x3ffffffd, 30⟩, ⟨0x0fffffeb, 28⟩, ⟨0x0fffffec, 28⟩,
    ⟨0x0fffffed, 28⟩, ⟨0x0fffffee, 28⟩, ⟨0x0fffffef, 28⟩, ⟨0x0ffffff0, 28⟩,
    ⟨0x0ffffff1, 28⟩, ⟨0x0ffffff2, 28⟩, ⟨0x3ffffffe, 30⟩, ⟨0x0ffffff3, 28⟩,
    ⟨0x0ffffff4, 28⟩, ⟨0x0ffffff5, 28⟩, ⟨0x0ffffff6, 28⟩, ⟨0x0ffffff7, 28⟩,
    ⟨0x0ffffff8, 28⟩, ⟨0x0ffffff9, 28⟩, ⟨0x0ffffffa, 28⟩, ⟨0x0ffffffb, 28⟩,
    ⟨0x00000014, 6⟩, ⟨0x000003f8, 10⟩, ⟨0x000003f9, 10⟩, ⟨0x00000ffa, 12⟩,
    ⟨0x00001ff9, 13⟩, ⟨0x00000015, 6⟩, ⟨0x000000f8, 8⟩, ⟨0x000007fa, 11⟩,
    ⟨0x000003fa, 10⟩, ⟨0x000003fb, 10⟩, ⟨0x000000f9, 8⟩, ⟨0x000007fb, 11⟩,
    ⟨0x000000fa, 8⟩, ⟨0x00000016, 6⟩, ⟨0x00000017, 6⟩, ⟨0x00000018, 6⟩,
    ⟨0x00000000, 5⟩, ⟨0x00000001, 5⟩, ⟨0x00000002, 5⟩, ⟨0x00000019, 6⟩,
    ⟨0x0000001a, 6⟩, ⟨0x0000001b, 6⟩, ⟨0x0000001c, 6⟩, ⟨0x0000001d, 6⟩,
    ⟨0x0000001e, 6⟩, ⟨0x0000001f, 6⟩, ⟨0x0000005c, 7⟩, ⟨0x000000fb, 8⟩,
    ⟨0x00007ffc, 15⟩, ⟨0x00000020, 6⟩, ⟨0x00000ffb, 12⟩, ⟨0x000003fc, 10⟩,
    ⟨0x00001ffa, 13⟩, ⟨0x00000003, 5⟩, ⟨0x00000023, 6⟩, ⟨0x00000004, 5⟩,
    ⟨0x00000024, 6⟩, ⟨0x00000005, 5⟩, ⟨0x00000025, 6⟩, ⟨0x00000026, 6⟩,
    ⟨0x00000027, 6⟩, ⟨0x00000006, 5⟩, ⟨0x00000074, 7⟩, ⟨0x00000075, 7⟩,
    ⟨0x00000028, 6⟩, ⟨0x00000029, 6⟩, ⟨0x0000002a, 6⟩, ⟨0x00000007, 5⟩,
    ⟨0x0000002b, 6⟩, ⟨0x00000076, 7⟩, ⟨0x0000002c, 6⟩, ⟨0x00000008, 5⟩,
    ⟨0x00000009, 5⟩, ⟨0x0000002d, 6⟩, ⟨0x00000077, 7⟩, ⟨0x00000078, 7⟩,
    ⟨0x00000079, 7⟩, ⟨0x0000007a, 7⟩, ⟨0x0000007b, 7⟩, ⟨0x00001ffb, 13⟩,
    ⟨0x0007fff0, 19⟩, ⟨0x00001ffc, 13⟩, ⟨0x00003ffc, 14⟩, ⟨0x00000022, 6⟩,
    ⟨0x00007ffd, 15⟩, ⟨0x00000003, 5⟩, ⟨0x00000023, 6⟩, ⟨0x00000004, 5⟩,
    ⟨0x00000024, 6⟩, ⟨0x00000005, 5⟩, ⟨0x00000025, 6⟩, ⟨0x00000026, 6⟩,
    ⟨0x00000027, 6⟩, ⟨0x00000006, 5⟩, ⟨0x00000074, 7⟩, ⟨0x00000075, 7⟩,
    ⟨0x00000028, 6⟩, ⟨0x00000029, 6⟩, ⟨0x0000002a, 6⟩, ⟨0x00000007, 5⟩,
    ⟨0x0000002b, 6⟩, ⟨0x00000076, 7⟩, ⟨0x0000002c, 6⟩, ⟨0x00000008, 5⟩,
    ⟨0x00000009, 5⟩, ⟨0x0000002d, 6⟩, ⟨0x00000077, 7⟩, ⟨0x00000078, 7⟩,
    ⟨0x00000079, 7⟩, ⟨0x0000007a, 7⟩, ⟨0x0000007b, 7⟩, ⟨0x00007ffe, 15⟩,
    ⟨0x000007fc, 11⟩, ⟨0x00003ffd, 14⟩, ⟨0x00001ffd, 13⟩, ⟨0x0ffffffc, 28⟩,
    ⟨0x000fffe6, 20⟩, ⟨0x003fffd2, 22⟩, ⟨0x000fffe7, 20⟩, ⟨0x000fffe8, 20⟩,
    ⟨0x003fffd3, 22⟩, ⟨0x003fffd4, 22⟩, ⟨0x003fffd5, 22⟩, ⟨0x007fffd9, 23⟩,
    ⟨0x003fffd6, 22⟩, ⟨0x007fffda, 23⟩, ⟨0x007fffdb, 23⟩, ⟨0x007fffdc, 23⟩,
    ⟨0x007fffdd, 23⟩, ⟨0x007fffde, 23⟩, ⟨0x00ffffeb, 24⟩, ⟨0x007fffdf, 23⟩,
    ⟨0x00ffffec, 24⟩, ⟨0x00ffffed, 24⟩, ⟨0x003fffd7, 22⟩, ⟨0x007fffe0, 23⟩,
    ⟨0x00ffffee, 24⟩, ⟨0x007fffe1, 23⟩, ⟨0x007fffe2, 23⟩, ⟨0x007fffe3, 23⟩,
    ⟨0x007fffe4, 23⟩, ⟨0x001fffdc, 21⟩, ⟨0x003fffd8, 22⟩, ⟨0x007fffe5, 23⟩,
    ⟨0x003fffd9, 22⟩, ⟨0x007fffe6, 23⟩, ⟨0x007fffe7, 23⟩, ⟨0x00ffffef, 24⟩,
    ⟨0x003fffda, 22⟩, ⟨0x001fffdd, 21⟩, ⟨0x000fffe9, 20⟩, ⟨0x003fffdb, 22⟩,
    ⟨0x003fffdc, 22⟩, ⟨0x007fffe8, 23⟩, ⟨0x007fffe9, 23⟩, ⟨0x001fffde, 21⟩,
    ⟨0x007fffea, 23⟩, ⟨0x003fffdd, 22⟩, ⟨0x003fffde, 22⟩, ⟨0x00fffff0, 24⟩,
    ⟨0x001fffdf, 21⟩, ⟨0x003fffdf, 22⟩, ⟨0x007fffeb, 23⟩, ⟨0x007fffec, 23⟩,
    ⟨0x001fffe0, 21⟩, ⟨0x001fffe1, 21⟩, ⟨0x003fffe0, 22⟩, ⟨0x001fffe2, 21⟩,
    ⟨0x007fffed, 23⟩, ⟨0x003fffe1, 22⟩, ⟨0x007fffee, 23⟩, ⟨0x007fffef, 23⟩,
    ⟨0x000fffea, 20⟩, ⟨0x003fffe2, 22⟩, ⟨0x003fffe3, 22⟩, ⟨0x003fffe4, 22⟩,
    ⟨0x007ffff0, 23⟩, ⟨0x003fffe5, 22⟩, ⟨0x003fffe6, 22⟩, ⟨0x007ffff1, 23⟩,
    ⟨0x03ffffe0, 26⟩, ⟨0x03ffffe1, 26⟩, ⟨0x000fffeb, 20⟩, ⟨0x0007fff1, 19⟩,
    ⟨0x003fffe7, 22⟩, ⟨0x007ffff2, 23⟩, ⟨0x003fffe8, 22⟩, ⟨0x01ffffec, 25⟩,
    ⟨0x03ffffe2, 26⟩, ⟨0x03ffffe3, 26⟩, ⟨0x03ffffe4, 26⟩, ⟨0x07ffffde, 27⟩,
    ⟨0x07ffffdf, 27⟩, ⟨0x03ffffe5, 26⟩, ⟨0x00fffff1, 24⟩, ⟨0x01ffffed, 25⟩,
    ⟨0x0007fff2, 19⟩, ⟨0x001fffe3, 21⟩, ⟨0x03ffffe6, 26⟩, ⟨0x07ffffe0, 27⟩,
    ⟨0x07ffffe1, 27⟩, ⟨0x03ffffe7, 26⟩, ⟨0x07ffffe2, 27⟩, ⟨0x00fffff2, 24⟩,
    ⟨0x001fffe4, 21⟩, ⟨0x001fffe5, 21⟩, ⟨0x03ffffe8, 26⟩, ⟨0x03ffffe9, 26⟩,
    ⟨0x0ffffffd, 28⟩, ⟨0x07ffffe3, 27⟩, ⟨0x07ffffe4, 27⟩, ⟨0x07ffffe5, 27⟩,
    ⟨0x000fffec, 20⟩, ⟨0x00fffff3, 24⟩, ⟨0x000fffed, 20⟩, ⟨0x001fffe6, 21⟩,
    ⟨0x003fffe9, 22⟩, ⟨0x001fffe7, 21⟩, ⟨0x001fffe8, 21⟩, ⟨0x007ffff3, 23⟩,
    ⟨0x003fffea, 22⟩, ⟨0x003fffeb, 22⟩, ⟨0x01ffffee, 25⟩, ⟨0x01ffffef, 25⟩,
    ⟨0x00fffff4, 24⟩, ⟨0x00fffff5, 24⟩, ⟨0x03ffffea, 26⟩, ⟨0x007ffff4, 23⟩,
    ⟨0x03ffffeb, 26⟩, ⟨0x07ffffe6, 27⟩, ⟨0x03ffffec, 26⟩, ⟨0x03ffffed, 26⟩,
    ⟨0x07ffffe7, 27⟩, ⟨0x07ffffe8, 27⟩, ⟨0x07ffffe9, 27⟩, ⟨0x07ffffea, 27⟩,
    ⟨0x07ffffeb, 27⟩, ⟨0x0ffffffe, 28⟩, ⟨0x07ffffec, 27⟩, ⟨0x07ffffed, 27⟩,
    ⟨0x07ffffee, 27⟩, ⟨0x07ffffef, 27⟩, ⟨0x07fffff0, 27⟩, ⟨0x03ffffee, 26⟩]

def table (lower : Bool) : List HuffEncodeCode := if lower then encodeTableLc else encodeTable

def next (table : List HuffEncodeCode) (c : UInt8) : HuffEncodeCode := table.getD c.toNat ⟨0, 0⟩

def shiftLeft (x : UInt64) (n : Nat) : Except HuffFault UInt64 :=
  if n < 64 then return x <<< UInt64.ofNat n else throw .shift

def shiftRight (x : UInt64) (n : Nat) : Except HuffFault UInt64 :=
  if n < 64 then return x >>> UInt64.ofNat n else throw .shift

/-- `dst[i]` and the bytes behind it; `dst` has the length of the source. -/
def store (dst : Region) (i : Nat) (bytes : Bytes) : Except HuffFault Region :=
  match dst.write (dst.start + i) bytes with
  | none => throw .outside
  | some dst => return dst

/-- `ngx_http_v2_huff_encode_buf` -/
def encodeBuf (buf : UInt64) : Bytes :=
  [(buf >>> 56).toUInt8, (buf >>> 48).toUInt8, (buf >>> 40).toUInt8, (buf >>> 32).toUInt8,
    (buf >>> 24).toUInt8, (buf >>> 16).toUInt8, (buf >>> 8).toUInt8, buf.toUInt8]

/-- `ngx_align` with a power of two -/
def align (d a : Nat) : Nat := (d + (a - 1)) / a * a

/-- `pending ? code << (64 - pending) : 0` -/
def carried (code : UInt64) (pending : Nat) : Except HuffFault UInt64 :=
  if pending = 0 then return 0 else shiftLeft code (64 - pending)

structure Locals where
  dst : Region
  hlen : Nat
  buf : UInt64
  pending : Nat

/-- One byte of the source; `.inl` is the `return 0`. -/
def encodeByte (len : Nat) (next : HuffEncodeCode) (l : Locals) :
    Except HuffFault (Region ⊕ Locals) := do
  let code := next.code.toUInt64
  let pending := l.pending + next.len.toNat
  if pending < 64 then
    let bits ← shiftLeft code (64 - pending)
    return .inr { l with buf := l.buf ||| bits, pending := pending }
  else if l.hlen + 8 ≥ len then return .inl l.dst
  else
    let pending := pending - 64
    let bits ← shiftRight code pending
    let dst ← store l.dst l.hlen (encodeBuf (l.buf ||| bits))
    let buf ← carried code pending
    return .inr ⟨dst, l.hlen + 8, buf, pending⟩

def encodeBytes (table : List HuffEncodeCode) (len : Nat) :
    Bytes → Locals → Except HuffFault (Region ⊕ Locals)
  | [], l => return .inr l
  | c :: src, l => do
      match ← encodeByte len (next table c) l with
      | .inl dst => return .inl dst
      | .inr l => encodeBytes table len src l

/-- The `do` loop over the last bytes; `pending` wraps around below 8. -/
def flush (buf : UInt64) (pending hlen : Nat) (dst : Region) : Except HuffFault (Nat × Region) :=
  if pending < 8 then throw .shift
  else do
    let byte ← shiftRight buf (pending - 8)
    let dst ← store dst hlen [byte.toUInt8]
    if pending - 8 = 0 then return (hlen + 1, dst) else flush buf (pending - 8) (hlen + 1) dst
termination_by pending

def finish (len : Nat) (l : Locals) : Except HuffFault (Nat × Region) := do
  if l.pending = 0 then return (l.hlen, l.dst)
  else
    let ones ← shiftRight (-1) l.pending
    let pending := align l.pending 8
    if l.hlen + pending / 8 ≥ len then return (0, l.dst)
    else
      let buf ← shiftRight (l.buf ||| ones) (64 - pending)
      flush buf pending l.hlen l.dst

end HuffEncode

open HuffEncode

def huffEncode (src : Bytes) (dst : Region) (lower : Bool) : Except HuffFault (Nat × Region) := do
  match ← encodeBytes (table lower) src.length src ⟨dst, 0, 0, 0⟩ with
  | .inl dst => return (0, dst)
  | .inr l => finish src.length l

namespace HuffEncode

open Data.BitString

theorem encodeTableLc_eq : ∀ c : UInt8, next encodeTableLc c =
    next encodeTable (if 65 ≤ c ∧ c ≤ 90 then c ||| 0x20 else c) := by
  apply forall_byte
  decide +kernel

theorem next_bounds (lower : Bool) : ∀ c : UInt8, 0 < (next (table lower) c).len.toNat ∧
    (next (table lower) c).len.toNat ≤ 32 ∧
      (next (table lower) c).code.toNat < 2 ^ (next (table lower) c).len.toNat := by
  apply forall_byte
  cases lower <;> decide +kernel

/-- The bits of a text by the table -/
def codeBits (table : List HuffEncodeCode) (src : Bytes) : List Bool :=
  src.flatMap fun c => bits (next table c).len.toNat (next table c).code.toNat

theorem toNat_ofNat_mod {n : Nat} (hn : n < 64) : (UInt64.ofNat n).toNat % 64 = n := by
  rw [UInt64.toNat_ofNat']
  omega

theorem shiftLeft_bits {n : Nat} (x : UInt64) (hpos : 0 < n) (hn : n ≤ 64) :
    ∃ y, shiftLeft x (64 - n) = .ok y ∧
      bits 64 y.toNat = bits n x.toNat ++ List.replicate (64 - n) false := by
  refine ⟨_, if_pos (by omega), ?_⟩
  have hsum : n + (64 - n) = 64 := by omega
  rw [UInt64.toNat_shiftLeft, toNat_ofNat_mod (by omega), bits_mod (Nat.le_refl 64),
    ← bits_shiftLeft, hsum]

theorem shiftRight_bits {n : Nat} (x : UInt64) (hn : n < 64) :
    ∃ y, shiftRight x n = .ok y ∧ y.toNat = x.toNat >>> n := by
  refine ⟨_, if_pos hn, ?_⟩
  rw [UInt64.toNat_shiftRight, toNat_ofNat_mod hn]

theorem encodeBuf_eq (buf : UInt64) : encodeBuf buf = bigEndian 8 buf.toNat := by
  have hbyte : ∀ x : UInt64, x.toUInt8 = UInt8.ofNat x.toNat := fun x => rfl
  simp only [encodeBuf, hbyte, UInt64.toNat_shiftRight, bigEndian]
  rfl

theorem store_of_holds {dst : Region} {out : Bytes} (bytes : Bytes) {i : Nat}
    (hholds : dst.Holds dst.start out) (hi : out.length = i) (hsize : i + bytes.length ≤ dst.size) :
    ∃ dst', store dst i bytes = .ok dst' ∧ dst'.start = dst.start ∧ dst'.size = dst.size ∧
      dst'.Holds dst.start (out ++ bytes) := by
  subst hi
  have hcontains : dst.Contains (dst.start + out.length) bytes.length :=
    ⟨Nat.le_add_right _ _, by omega⟩
  refine ⟨dst.put (dst.start + out.length) bytes, ?_, rfl, rfl, hholds.put_behind hcontains⟩
  rw [store, Region.write_of_contains hcontains]
  rfl

/-- `out` has been written and `rest` is pending in the high bits of the word. -/
structure Packs (codes : List Bool) (out : Bytes) (rest : List Bool) (l : Locals) : Prop where
  holds : l.dst.Holds l.dst.start out
  length_out : out.length = l.hlen
  length_rest : rest.length = l.pending
  pending_lt : l.pending < 64
  buf_eq : bits 64 l.buf.toNat = rest ++ List.replicate (64 - l.pending) false
  codes_eq : byteBits out ++ rest = codes
  hlen_le : l.hlen = 0 ∨ l.hlen < l.dst.size

/-- What one byte of the source does -/
inductive Encoded (len : Nat) (codes : List Bool) (l : Locals) : Region ⊕ Locals → Prop where
  | full {dst : Region} : 8 * len ≤ codes.length → Encoded len codes l (.inl dst)
  | packed {l' : Locals} : l'.dst.start = l.dst.start → l'.dst.size = l.dst.size →
      Packs codes out rest l' → Encoded len codes l (.inr l')

/-- A word with room takes the bits of another one that has only these. -/
theorem bits_or_word {buf y : UInt64} {rest cs : List Bool}
    (hbuf : bits 64 buf.toNat = rest ++ List.replicate (64 - rest.length) false)
    (hy : bits 64 y.toNat = List.replicate rest.length false ++ cs)
    (hlength : rest.length + cs.length = 64) : bits 64 (buf ||| y).toNat = rest ++ cs := by
  have hroom : 64 - rest.length = cs.length := by omega
  rw [hroom, ← hlength] at hbuf
  rw [← hlength] at hy ⊢
  rw [UInt64.toNat_or]
  exact bits_or_append hbuf hy rfl rfl

theorem Packs.length_codes {codes rest : List Bool} {out : Bytes} {l : Locals}
    (h : Packs codes out rest l) : codes.length = 8 * l.hlen + l.pending := by
  rw [← h.codes_eq, List.length_append, length_byteBits, h.length_out, h.length_rest]

theorem Packs.buf_rest {codes rest : List Bool} {out : Bytes} {l : Locals}
    (h : Packs codes out rest l) :
    bits 64 l.buf.toNat = rest ++ List.replicate (64 - rest.length) false := by
  rw [h.buf_eq, h.length_rest]

theorem Packs.room {codes rest : List Bool} {out : Bytes} {l : Locals} {n code : Nat} {y : UInt64}
    (h : Packs codes out rest l) (hlt : code < 2 ^ n) (hroom : l.pending + n < 64)
    (hy : bits 64 y.toNat =
      bits (l.pending + n) code ++ List.replicate (64 - (l.pending + n)) false) :
    Packs (codes ++ bits n code) out (rest ++ bits n code)
      { l with buf := l.buf ||| y, pending := l.pending + n } := by
  rw [bits_of_lt hlt, List.append_assoc, ← h.length_rest] at hy
  have hword := bits_or_word h.buf_rest hy (by
    rw [List.length_append, length_bits, List.length_replicate, h.length_rest]
    omega)
  refine ⟨h.holds, h.length_out, ?_, hroom, ?_, ?_, h.hlen_le⟩
  · rw [List.length_append, h.length_rest, length_bits]
  · rw [hword, List.append_assoc, h.length_rest]
  · rw [← List.append_assoc, h.codes_eq]

/-- The word is full, and `p` bits of the code are left for the next one. -/
theorem Packs.word {codes rest : List Bool} {out : Bytes} {l : Locals} {n p code : Nat} {y : UInt64}
    (h : Packs codes out rest l) (hlt : code < 2 ^ n) (hp : l.pending + n = 64 + p)
    (hy : y.toNat = code >>> p) :
    bits 64 (l.buf ||| y).toNat = rest ++ bits (n - p) (code >>> p) := by
  have hpending := h.pending_lt
  have hhigh : code >>> p < 2 ^ (n - p) := by
    rw [Nat.shiftRight_eq_div_pow]
    apply Nat.div_lt_of_lt_mul
    rwa [← Nat.pow_add, Nat.add_sub_cancel' (by omega)]
  have hsum : rest.length + (n - p) = 64 := by
    rw [h.length_rest]
    omega
  refine bits_or_word h.buf_rest ?_ ((congrArg _ (length_bits _ _)).trans hsum)
  rw [hy, ← bits_of_lt hhigh, hsum]

theorem Packs.flushed {codes rest : List Bool} {out : Bytes} {l : Locals} {n p code : Nat}
    {y z : UInt64} {dst : Region} (h : Packs codes out rest l) (hlt : code < 2 ^ n)
    (hp : l.pending + n = 64 + p) (hy : y.toNat = code >>> p)
    (hz : bits 64 z.toNat = bits p code ++ List.replicate (64 - p) false)
    (hholds : dst.Holds dst.start (out ++ encodeBuf (l.buf ||| y))) (hp' : p < 64)
    (hfits : l.hlen + 8 < dst.size) :
    Packs (codes ++ bits n code) (out ++ encodeBuf (l.buf ||| y)) (bits p code)
      ⟨dst, l.hlen + 8, z, p⟩ := by
  have hpending := h.pending_lt
  have hsplit : bits n code = bits (n - p) (code >>> p) ++ bits p code := by
    rw [← bits_add, Nat.sub_add_cancel (by omega)]
  refine ⟨hholds, ?_, length_bits _ _, hp', hz, ?_, .inr hfits⟩
  · rw [List.length_append, h.length_out]
    rfl
  · rw [byteBits_append, encodeBuf_eq, byteBits_bigEndian, h.word hlt hp hy, hsplit, ← h.codes_eq]
    simp only [List.append_assoc]

theorem carried_bits {p : Nat} (code : UInt64) (hp : p < 64) :
    ∃ z, carried code p = .ok z ∧
      bits 64 z.toNat = bits p code.toNat ++ List.replicate (64 - p) false := by
  rw [carried]
  split
  · next hzero =>
    subst hzero
    exact ⟨0, rfl, bits_zero 64⟩
  · next hpos => exact shiftLeft_bits code (Nat.pos_of_ne_zero hpos) (Nat.le_of_lt hp)

theorem encodeByte_spec {next : HuffEncodeCode} {codes rest : List Bool} {out : Bytes} {l : Locals}
    (hlen : 0 < next.len.toNat ∧ next.len.toNat ≤ 32 ∧ next.code.toNat < 2 ^ next.len.toNat)
    (h : Packs codes out rest l) :
    ∃ r, encodeByte l.dst.size next l = .ok r ∧
      Encoded l.dst.size (codes ++ bits next.len.toNat next.code.toNat) l r := by
  obtain ⟨hpos, hle, hlt⟩ := hlen
  have hpending := h.pending_lt
  rw [encodeByte]
  generalize next.len.toNat = n at *
  have hcode : next.code.toUInt64.toNat = next.code.toNat := UInt32.toNat_toUInt64 _
  rw [← hcode] at hlt ⊢
  generalize next.code.toUInt64 = code at *
  dsimp only
  by_cases hroom : l.pending + n < 64
  · obtain ⟨y, hshift, hy⟩ := shiftLeft_bits code (Nat.lt_add_left l.pending hpos)
      (Nat.le_of_lt hroom)
    rw [if_pos hroom, hshift]
    exact ⟨_, rfl, .packed rfl rfl (h.room hlt hroom hy)⟩
  rw [if_neg hroom]
  by_cases hfull : l.hlen + 8 ≥ l.dst.size
  · rw [if_pos hfull]
    refine ⟨_, rfl, .full ?_⟩
    rw [List.length_append, length_bits, h.length_codes]
    omega
  obtain ⟨p, hp⟩ : ∃ p, l.pending + n = 64 + p := ⟨l.pending + n - 64, by omega⟩
  obtain ⟨y, hshift, hy⟩ := shiftRight_bits code (n := p) (by omega)
  obtain ⟨z, hcarried, hz⟩ := carried_bits code (p := p) (by omega)
  obtain ⟨dst, hstore, hstart, hsize, hholds⟩ := store_of_holds
    (encodeBuf (l.buf ||| y)) h.holds h.length_out (Nat.le_of_lt (Nat.not_le.mp hfull))
  have hpacks := h.flushed hlt hp hy hz (hstart ▸ hholds) (by omega)
    (hsize ▸ Nat.not_le.mp hfull)
  refine ⟨.inr ⟨dst, l.hlen + 8, z, p⟩, ?_, .packed hstart hsize hpacks⟩
  rw [if_neg hfull, hp, Nat.add_sub_cancel_left, hshift]
  change (store l.dst l.hlen _ >>= _) = _
  rw [hstore]
  change (carried code p >>= _) = _
  rw [hcarried]
  rfl

theorem encodeBytes_spec (lower : Bool) (src : Bytes) {codes rest : List Bool} {out : Bytes}
    {l : Locals} (h : Packs codes out rest l) :
    ∃ r, encodeBytes (table lower) l.dst.size src l = .ok r ∧
      Encoded l.dst.size (codes ++ codeBits (table lower) src) l r := by
  induction src generalizing codes rest out l with
  | nil => exact ⟨_, rfl, .packed rfl rfl (by rwa [codeBits, List.flatMap_nil, List.append_nil])⟩
  | cons c src ih =>
      obtain ⟨r, hr, hencoded⟩ := encodeByte_spec (next_bounds lower c) h
      have hcons : codeBits (table lower) (c :: src) =
          bits (next (table lower) c).len.toNat (next (table lower) c).code.toNat ++
            codeBits (table lower) src := List.flatMap_cons
      rw [encodeBytes, hr, hcons, ← List.append_assoc]
      cases hencoded with
      | full hlength =>
          refine ⟨_, rfl, .full ?_⟩
          rw [List.length_append]
          exact Nat.le_add_right_of_le hlength
      | @packed _ _ l' hstart hsize hpacks =>
          obtain ⟨r, hr, hencoded⟩ := ih hpacks
          rw [hsize] at hr hencoded
          refine ⟨r, hr, ?_⟩
          cases hencoded with
          | full hlength => exact .full hlength
          | packed hstart' hsize' hpacks' =>
              exact .packed (hstart'.trans hstart) (hsize'.trans hsize) hpacks'

theorem flush_step (buf : UInt64) {k hlen : Nat} {dst : Region} {out : Bytes} (hk : k < 8)
    (hholds : dst.Holds dst.start out) (hlength : out.length = hlen) (hsize : hlen + 1 ≤ dst.size) :
    ∃ dst', dst'.start = dst.start ∧ dst'.size = dst.size ∧
      dst'.Holds dst.start (out ++ [UInt8.ofNat (buf.toNat >>> (8 * k))]) ∧
      flush buf (8 * (k + 1)) hlen dst =
        if k = 0 then .ok (hlen + 1, dst') else flush buf (8 * k) (hlen + 1) dst' := by
  obtain ⟨y, hshift, hy⟩ := shiftRight_bits buf (n := 8 * k) (by omega)
  obtain ⟨dst', hstore, hstart, hsize', hholds'⟩ :=
    store_of_holds [y.toUInt8] hholds hlength hsize
  refine ⟨dst', hstart, hsize', ?_, ?_⟩
  · rw [← hy]
    exact hholds'
  · have hsub : 8 * (k + 1) - 8 = 8 * k := rfl
    have hzero : 8 * k = 0 ↔ k = 0 := by omega
    rw [flush, if_neg (by omega), hsub, hshift]
    change (store dst hlen _ >>= _) = _
    rw [hstore]
    simp only [hzero]
    rfl

theorem flush_spec (buf : UInt64) (k : Nat) {hlen : Nat} {dst : Region} {out : Bytes} (hk : k < 8)
    (hholds : dst.Holds dst.start out) (hlength : out.length = hlen)
    (hsize : hlen + (k + 1) ≤ dst.size) :
    ∃ dst', flush buf (8 * (k + 1)) hlen dst = .ok (hlen + (k + 1), dst') ∧
      dst'.Holds dst.start (out ++ bigEndian (k + 1) buf.toNat) := by
  induction k generalizing hlen dst out with
  | zero =>
      obtain ⟨dst', -, -, hholds', hflush⟩ := flush_step buf hk hholds hlength hsize
      exact ⟨dst', hflush, hholds'⟩
  | succ k ih =>
      obtain ⟨dst', hstart, hsize', hholds', hflush⟩ :=
        flush_step buf hk hholds hlength (by omega)
      rw [← hstart] at hholds'
      have hlength' : (out ++ [UInt8.ofNat (buf.toNat >>> (8 * (k + 1)))]).length = hlen + 1 := by
        rw [List.length_append, hlength, List.length_singleton]
      obtain ⟨dst'', hrest, hholds''⟩ := ih (by omega) hholds' hlength' (by omega)
      refine ⟨dst'', ?_, ?_⟩
      · rw [hflush, if_neg (Nat.succ_ne_zero k), hrest, Nat.add_assoc, Nat.add_comm 1]
      · rwa [hstart, List.append_assoc] at hholds''

/-- What the function returns for the bits of the source -/
structure Answer (size : Nat) (codes : List Bool) (start h : Nat) (dst : Region) : Prop where
  pos_iff : 0 < h ↔ codes ≠ [] ∧ (padded codes).length / 8 < size
  eq_length : 0 < h → h = (padded codes).length / 8
  holds : 0 < h → ∃ text, text.length = h ∧ dst.Holds start text ∧ byteBits text = padded codes

theorem Answer.zero {size start : Nat} {codes : List Bool} {dst : Region}
    (h : codes = [] ∨ size ≤ (padded codes).length / 8) : Answer size codes start 0 dst := by
  refine ⟨⟨fun hpos => absurd hpos (Nat.lt_irrefl 0), ?_⟩, fun hpos => absurd hpos (Nat.lt_irrefl 0),
    fun hpos => absurd hpos (Nat.lt_irrefl 0)⟩
  rintro ⟨hne, hlt⟩
  exact absurd hlt (Nat.not_lt.mpr (h.resolve_left hne))

theorem Answer.whole {size start : Nat} {codes : List Bool} {dst : Region} {text : Bytes}
    (hpos : 0 < text.length) (hlt : text.length < size) (hholds : dst.Holds start text)
    (hbits : byteBits text = padded codes) : Answer size codes start text.length dst := by
  have hlength : (padded codes).length = 8 * text.length := by
    rw [← hbits, length_byteBits]
  have hne : codes ≠ [] := by
    rintro rfl
    have hzero : 0 = 8 * text.length := hlength
    omega
  have hdiv : text.length = (padded codes).length / 8 := by omega
  exact ⟨⟨fun _ => ⟨hne, hdiv ▸ hlt⟩, fun _ => hpos⟩, fun _ => hdiv,
    fun _ => ⟨text, rfl, hholds, hbits⟩⟩

/-- The last bytes: what is pending, filled with one bits -/
theorem Packs.last {codes rest : List Bool} {out : Bytes} {l : Locals} {k : Nat} {ones y : UInt64}
    (h : Packs codes out rest l) (hk : align l.pending 8 = 8 * k)
    (hones : ones.toNat = (2 ^ 64 - 1) >>> l.pending)
    (hy : y.toNat = (l.buf ||| ones).toNat >>> (64 - 8 * k)) :
    byteBits (out ++ bigEndian k y.toNat) = padded codes := by
  have hpending := h.pending_lt
  have hceil : (l.pending + 7) / 8 * 8 = 8 * k := hk
  have hsum : rest.length + (64 - rest.length) = 64 := by
    rw [h.length_rest]
    omega
  have hword : bits 64 (l.buf ||| ones).toNat = rest ++ List.replicate (64 - rest.length) true := by
    refine bits_or_word h.buf_rest ?_ ?_
    · rw [hones, ← h.length_rest, ← hsum, ones_shiftRight,
        bits_of_lt (Nat.sub_lt (Nat.two_pow_pos _) Nat.one_pos), bits_ones, hsum]
    · rw [List.length_replicate, hsum]
  have hfill : 64 - rest.length = (8 - rest.length % 8) % 8 + (64 - 8 * k) := by
    rw [h.length_rest]
    omega
  have hsplit := bits_add (8 * k) (64 - 8 * k) (l.buf ||| ones).toNat
  rw [Nat.add_sub_cancel' (by omega), hword, hfill, List.replicate_add, ← List.append_assoc] at hsplit
  obtain ⟨hbits, -⟩ := List.append_inj' hsplit (by rw [List.length_replicate, length_bits])
  have hwhole : (byteBits out).length % 8 = 0 := by
    rw [length_byteBits]
    omega
  rw [byteBits_append, byteBits_bigEndian, hy, ← hbits, ← h.codes_eq, padded_append hwhole, padded]

theorem finish_spec {codes rest : List Bool} {out : Bytes} {l : Locals}
    (h : Packs codes out rest l) :
    ∃ n dst, finish l.dst.size l = .ok (n, dst) ∧ Answer l.dst.size codes l.dst.start n dst := by
  have hpending := h.pending_lt
  rw [finish]
  by_cases hzero : l.pending = 0
  · have hcodes : byteBits out = codes := by
      rw [← h.codes_eq, List.length_eq_zero_iff.mp (h.length_rest.trans hzero), List.append_nil]
    rw [if_pos hzero]
    refine ⟨l.hlen, l.dst, rfl, ?_⟩
    rcases Nat.eq_zero_or_pos l.hlen with hstart | hpos
    · rw [hstart]
      refine .zero (.inl ?_)
      rw [← hcodes, List.length_eq_zero_iff.mp (h.length_out.trans hstart)]
      rfl
    · have hlt := h.hlen_le.resolve_left (Nat.ne_of_gt hpos)
      have hwhole : (byteBits out).length % 8 = 0 := by
        rw [length_byteBits]
        omega
      have hpadded := padded_append hwhole []
      rw [List.append_nil, hcodes, show padded [] = [] from rfl, List.append_nil, ← hcodes] at hpadded
      rw [← h.length_out] at hpos hlt ⊢
      exact .whole hpos hlt h.holds (hpadded.symm.trans (congrArg padded hcodes))
  obtain ⟨k, hk, hk8⟩ : ∃ k, align l.pending 8 = 8 * (k + 1) ∧ k < 8 := by
    refine ⟨(l.pending - 1) / 8, ?_, ?_⟩
    · rw [align]
      omega
    · omega
  obtain ⟨ones, hones, hones'⟩ := shiftRight_bits (-1) hpending
  rw [if_neg hzero, hones, hk]
  change ∃ n dst, (if l.hlen + 8 * (k + 1) / 8 ≥ l.dst.size then _ else _) = _ ∧ _
  rw [Nat.mul_div_cancel_left (k + 1) (by decide)]
  by_cases hfull : l.hlen + (k + 1) ≥ l.dst.size
  · rw [if_pos hfull]
    refine ⟨0, l.dst, rfl, .zero (.inr ?_)⟩
    rw [length_padded, h.length_codes]
    rw [align] at hk
    omega
  obtain ⟨y, hshift, hy⟩ := shiftRight_bits (l.buf ||| ones) (n := 64 - 8 * (k + 1)) (by omega)
  obtain ⟨dst, hflush, hholds⟩ := flush_spec y k hk8 h.holds h.length_out (by omega)
  have hlength : (out ++ bigEndian (k + 1) y.toNat).length = l.hlen + (k + 1) := by
    rw [List.length_append, h.length_out, length_bigEndian]
  rw [if_neg hfull, hshift]
  refine ⟨_, dst, hflush, ?_⟩
  rw [← hlength]
  exact .whole (by omega) (by omega) hholds (h.last hk hones' hy)

theorem codeBits_ne_nil {lower : Bool} {src : Bytes} :
    codeBits (table lower) src ≠ [] ↔ src ≠ [] := by
  cases src with
  | nil => exact not_congr (iff_of_true rfl rfl)
  | cons c src =>
      have hpos := (next_bounds lower c).1
      have hne : codeBits (table lower) (c :: src) ≠ [] := by
        rw [← List.length_pos_iff, codeBits, List.flatMap_cons, List.length_append, length_bits]
        omega
      exact iff_of_true hne (List.cons_ne_nil c src)

theorem huffEncode_exact (src : Bytes) (start : Nat) (garbage : Nat → UInt8) (lower : Bool) :
    ∃ h dst, huffEncode src ⟨start, src.length, garbage⟩ lower = .ok (h, dst) ∧
      (0 < h ↔ src ≠ [] ∧ (padded (codeBits (table lower) src)).length / 8 < src.length) ∧
      (0 < h → h = (padded (codeBits (table lower) src)).length / 8 ∧
        ∃ text, text.length = h ∧ dst.Holds start text ∧
          byteBits text = padded (codeBits (table lower) src)) := by
  have hempty : (⟨start, src.length, garbage⟩ : Region).Holds start [] :=
    Region.holds_iff.mpr ⟨⟨Nat.le_refl _, Nat.le_add_right _ _⟩,
      fun i hi => absurd hi (Nat.not_lt_zero i)⟩
  have hstart : Packs [] [] [] ⟨⟨start, src.length, garbage⟩, 0, 0, 0⟩ :=
    ⟨hempty, rfl, rfl, Nat.zero_lt_succ 63, bits_zero 64, rfl, .inl rfl⟩
  obtain ⟨r, hr, hencoded⟩ := encodeBytes_spec lower src hstart
  rw [List.nil_append] at hencoded
  rw [huffEncode]
  have hanswer : ∀ h dst, Answer src.length (codeBits (table lower) src) start h dst →
      (0 < h ↔ src ≠ [] ∧ (padded (codeBits (table lower) src)).length / 8 < src.length) ∧
      (0 < h → h = (padded (codeBits (table lower) src)).length / 8 ∧
        ∃ text, text.length = h ∧ dst.Holds start text ∧
          byteBits text = padded (codeBits (table lower) src)) := by
    intro h dst answer
    rw [← @codeBits_ne_nil lower src]
    exact ⟨answer.pos_iff, fun hpos => ⟨answer.eq_length hpos, answer.holds hpos⟩⟩
  change encodeBytes (table lower) src.length src _ = _ at hr
  rw [hr]
  cases hencoded with
  | @full dst hlength =>
      refine ⟨0, dst, rfl, hanswer 0 dst (.zero (.inr ?_))⟩
      rw [length_padded]
      change 8 * src.length ≤ _ at hlength
      omega
  | @packed out rest l' hstart hsize hpacks =>
      obtain ⟨h, dst, hfinish, answer⟩ := finish_spec hpacks
      rw [hsize, hstart] at answer
      rw [hsize] at hfinish
      exact ⟨h, dst, hfinish, hanswer h dst answer⟩

end HuffEncode

end RebuildTheWheel.Nginx
