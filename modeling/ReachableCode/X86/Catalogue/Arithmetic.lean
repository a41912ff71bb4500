import ReachableCode.X86.Catalogue.Entry

/-!
Encodings that compute: arithmetic, logic, shifts and comparisons.
-/

namespace ReachableCode.X86.Catalogue

open Entry

/-- The entries of this kind in 32-bit mode. -/
def narrowArithmetic : List Entry :=
  [
    ⟨[0x00, 0x00], "add",
      .fixed "byte ptr [eax], al"
        [mem (some "eax") none 1 0 1 .readWrite, reg "al" 1 .read], ["eflags"]⟩,
    ⟨[0x00, 0xff], "add", .fixed "bh, bh" [reg "bh" 1 .readWrite, reg "bh" 1 .read], ["eflags"]⟩,
    ⟨[0x01, 0x00], "add",
      .fixed "dword ptr [eax], eax"
        [mem (some "eax") none 1 0 4 .readWrite, reg "eax" 4 .read], ["eflags"]⟩,
    ⟨[0x04, 0x04], "add", .fixed "al, 4" [reg "al" 1 .readWrite, imm 4 1], ["eflags"]⟩,
    ⟨[0x05, 0x00, 0x00, 0x00, 0x00], "add",
      .fixed "eax, 0" [reg "eax" 4 .readWrite, imm 0 4], ["eflags"]⟩,
    ⟨[0x05, 0x00, 0x00, 0x00, 0x80], "add",
      .fixed "eax, 0x80000000" [reg "eax" 4 .readWrite, imm 2147483648 4], ["eflags"]⟩,
    ⟨[0x05, 0x10, 0x10, 0x00, 0x00], "add",
      .fixed "eax, 0x1010" [reg "eax" 4 .readWrite, imm 4112 4], ["eflags"]⟩,
    ⟨[0x05, 0x11, 0x10, 0x00, 0x00], "add",
      .fixed "eax, 0x1011" [reg "eax" 4 .readWrite, imm 4113 4], ["eflags"]⟩,
    ⟨[0x0f, 0xaf, 0xc3], "imul",
      .fixed "eax, ebx" [reg "eax" 4 .readWrite, reg "ebx" 4 .read], ["eflags"]⟩,
    ⟨[0x0f, 0xba, 0xe0, 0x01], "bt", .fixed "eax, 1" [reg "eax" 4 .read, imm 1 1], ["eflags"]⟩,
    ⟨[0x0f, 0xba, 0xe8, 0x01], "bts", .fixed "eax, 1" [reg "eax" 4 .readWrite, imm 1 1], ["eflags"]⟩,
    ⟨[0x27], "daa", .fixed "" [], []⟩,
    ⟨[0x30, 0xe4], "xor", .fixed "ah, ah" [reg "ah" 1 .readWrite, reg "ah" 1 .read], ["eflags"]⟩,
    ⟨[0x31, 0xc0], "xor", .fixed "eax, eax" [reg "eax" 4 .readWrite, reg "eax" 4 .read], ["eflags"]⟩,
    ⟨[0x31, 0xc8], "xor", .fixed "eax, ecx" [reg "eax" 4 .readWrite, reg "ecx" 4 .read], ["eflags"]⟩,
    ⟨[0x37], "aaa", .fixed "" [], []⟩,
    ⟨[0x40], "inc", .fixed "eax" [reg "eax" 4 .readWrite], ["eflags"]⟩,
    ⟨[0x48], "dec", .fixed "eax" [reg "eax" 4 .readWrite], ["eflags"]⟩,
    ⟨[0x49], "dec", .fixed "ecx" [reg "ecx" 4 .readWrite], ["eflags"]⟩,
    ⟨[0x67, 0x48], "dec", .fixed "eax" [reg "eax" 4 .readWrite], ["eflags"]⟩,
    ⟨[0x80, 0xc0, 0xff], "add", .fixed "al, 0xff" [reg "al" 1 .readWrite, imm 255 1], ["eflags"]⟩,
    ⟨[0x80, 0xe8, 0x80], "sub", .fixed "al, 0x80" [reg "al" 1 .readWrite, imm 128 1], ["eflags"]⟩,
    ⟨[0x81, 0xe8, 0x00, 0x00, 0x00, 0x80], "sub",
      .fixed "eax, 0x80000000" [reg "eax" 4 .readWrite, imm 2147483648 4], ["eflags"]⟩,
    ⟨[0x83, 0x04, 0x25, 0x00, 0x10, 0x00, 0x00, 0x01], "add",
      .fixed "dword ptr [0x1000], 1" [mem none none 1 4096 4 .readWrite, imm 1 4], ["eflags"]⟩,
    ⟨[0x83, 0x7d, 0x08, 0x03], "cmp",
      .fixed "dword ptr [ebp + 8], 3" [mem (some "ebp") none 1 8 4 .read, imm 3 4], ["eflags"]⟩,
    ⟨[0x83, 0xc0, 0x04], "add", .fixed "eax, 4" [reg "eax" 4 .readWrite, imm 4 4], ["eflags"]⟩,
    ⟨[0x83, 0xc0, 0xff], "add", .fixed "eax, -1" [reg "eax" 4 .readWrite, imm (-1) 4], ["eflags"]⟩,
    ⟨[0x83, 0xc3, 0x10], "add", .fixed "ebx, 0x10" [reg "ebx" 4 .readWrite, imm 16 4], ["eflags"]⟩,
    ⟨[0x83, 0xe8, 0xfc], "sub", .fixed "eax, -4" [reg "eax" 4 .readWrite, imm (-4) 4], ["eflags"]⟩,
    ⟨[0x83, 0xec, 0x08], "sub", .fixed "esp, 8" [reg "esp" 4 .readWrite, imm 8 4], ["eflags"]⟩,
    ⟨[0x83, 0xf8, 0x01], "cmp", .fixed "eax, 1" [reg "eax" 4 .read, imm 1 4], ["eflags"]⟩,
    ⟨[0x85, 0xc0], "test", .fixed "eax, eax" [reg "eax" 4 .read, reg "eax" 4 .read], ["eflags"]⟩,
    ⟨[0xd6], "salc", .fixed "" [], ["al"]⟩,
    ⟨[0xf7, 0xe3], "mul", .fixed "ebx" [reg "ebx" 4 .read], ["eax", "edx", "eflags"]⟩
  ]

/-- The entries of this kind in 64-bit mode. -/
def wideArithmetic : List Entry :=
  [
    ⟨[0x00, 0x00], "add",
      .fixed "byte ptr [rax], al"
        [mem (some "rax") none 1 0 1 .readWrite, reg "al" 1 .read], ["rflags"]⟩,
    ⟨[0x00, 0x10], "add",
      .fixed "byte ptr [rax], dl"
        [mem (some "rax") none 1 0 1 .readWrite, reg "dl" 1 .read], ["rflags"]⟩,
    ⟨[0x00, 0x20], "add",
      .fixed "byte ptr [rax], ah"
        [mem (some "rax") none 1 0 1 .readWrite, reg "ah" 1 .read], ["rflags"]⟩,
    ⟨[0x00, 0x48, 0x89], "add",
      .fixed "byte ptr [rax - 0x77], cl"
        [mem (some "rax") none 1 (-119) 1 .readWrite, reg "cl" 1 .read], ["rflags"]⟩,
    ⟨[0x00, 0x5b, 0x85], "add",
      .fixed "byte ptr [rbx - 0x7b], bl"
        [mem (some "rbx") none 1 (-123) 1 .readWrite, reg "bl" 1 .read], ["rflags"]⟩,
    ⟨[0x00, 0xc3], "add", .fixed "bl, al" [reg "bl" 1 .readWrite, reg "al" 1 .read], ["rflags"]⟩,
    ⟨[0x01, 0x00], "add",
      .fixed "dword ptr [rax], eax"
        [mem (some "rax") none 1 0 4 .readWrite, reg "eax" 4 .read], ["rflags"]⟩,
    ⟨[0x01, 0xff], "add", .fixed "edi, edi" [reg "edi" 4 .readWrite, reg "edi" 4 .read], ["rflags"]⟩,
    ⟨[0x02, 0xb0, 0x05, 0x74, 0xf7, 0x48], "add",
      .fixed "dh, byte ptr [rax + 0x48f77405]"
        [reg "dh" 1 .readWrite, mem (some "rax") none 1 1224176645 1 .read], ["rflags"]⟩,
    ⟨[0x04, 0x01], "add", .fixed "al, 1" [reg "al" 1 .readWrite, imm 1 1], ["rflags"]⟩,
    ⟨[0x04, 0x31], "add", .fixed "al, 0x31" [reg "al" 1 .readWrite, imm 49 1], ["rflags"]⟩,
    ⟨[0x05, 0x00, 0x00, 0x00, 0x00], "add",
      .fixed "eax, 0" [reg "eax" 4 .readWrite, imm 0 4], ["rflags"]⟩,
    ⟨[0x05, 0x03, 0x00, 0x00, 0x00], "add",
      .fixed "eax, 3" [reg "eax" 4 .readWrite, imm 3 4], ["rflags"]⟩,
    ⟨[0x05, 0x11, 0x10, 0x00, 0x00], "add",
      .fixed "eax, 0x1011" [reg "eax" 4 .readWrite, imm 4113 4], ["rflags"]⟩,
    ⟨[0x0d, 0x05, 0x00, 0x00, 0x00], "or",
      .fixed "eax, 5" [reg "eax" 4 .readWrite, imm 5 4], ["rflags"]⟩,
    ⟨[0x0f, 0xba, 0xe0, 0x01], "bt", .fixed "eax, 1" [reg "eax" 4 .read, imm 1 1], ["rflags"]⟩,
    ⟨[0x15, 0xf4, 0x0f, 0x00, 0x00], "adc",
      .fixed "eax, 0xff4" [reg "eax" 4 .readWrite, imm 4084 4], ["rflags"]⟩,
    ⟨[0x24, 0xcd], "and", .fixed "al, 0xcd" [reg "al" 1 .readWrite, imm 205 1], ["rflags"]⟩,
    ⟨[0x25, 0x08, 0x20, 0x00, 0x00], "and",
      .fixed "eax, 0x2008" [reg "eax" 4 .readWrite, imm 8200 4], ["rflags"]⟩,
    ⟨[0x2d, 0x00, 0x01, 0x00, 0x00], "sub",
      .fixed "eax, 0x100" [reg "eax" 4 .readWrite, imm 256 4], ["rflags"]⟩,
    ⟨[0x30, 0xc0], "xor", .fixed "al, al" [reg "al" 1 .readWrite, reg "al" 1 .read], ["rflags"]⟩,
    ⟨[0x31, 0xc0], "xor", .fixed "eax, eax" [reg "eax" 4 .readWrite, reg "eax" 4 .read], ["rflags"]⟩,
    ⟨[0x31, 0xc9], "xor", .fixed "ecx, ecx" [reg "ecx" 4 .readWrite, reg "ecx" 4 .read], ["rflags"]⟩,
    ⟨[0x31, 0xd8], "xor", .fixed "eax, ebx" [reg "eax" 4 .readWrite, reg "ebx" 4 .read], ["rflags"]⟩,
    ⟨[0x43, 0x02, 0x74, 0xf6, 0x74], "add",
      .fixed "sil, byte ptr [r14 + r14*8 + 0x74]"
        [reg "sil" 1 .readWrite, mem (some "r14") (some "r14") 8 116 1 .read], ["rflags"]⟩,
    ⟨[0x45, 0x31, 0xc0], "xor",
      .fixed "r8d, r8d" [reg "r8d" 4 .readWrite, reg "r8d" 4 .read], ["rflags"]⟩,
    ⟨[0x48, 0x01, 0x18], "add",
      .fixed "qword ptr [rax], rbx"
        [mem (some "rax") none 1 0 8 .readWrite, reg "rbx" 8 .read], ["rflags"]⟩,
    ⟨[0x48, 0x01, 0xc8], "add",
      .fixed "rax, rcx" [reg "rax" 8 .readWrite, reg "rcx" 8 .read], ["rflags"]⟩,
    ⟨[0x48, 0x01, 0xd8], "add",
      .fixed "rax, rbx" [reg "rax" 8 .readWrite, reg "rbx" 8 .read], ["rflags"]⟩,
    ⟨[0x48, 0x01, 0xd9], "add",
      .fixed "rcx, rbx" [reg "rcx" 8 .readWrite, reg "rbx" 8 .read], ["rflags"]⟩,
    ⟨[0x48, 0x03, 0x03], "add",
      .fixed "rax, qword ptr [rbx]"
        [reg "rax" 8 .readWrite, mem (some "rbx") none 1 0 8 .read], ["rflags"]⟩,
    ⟨[0x48, 0x05, 0x00, 0x00, 0x00, 0x80], "add",
      .fixed "rax, -0x80000000" [reg "rax" 8 .readWrite, imm (-2147483648) 8], ["rflags"]⟩,
    ⟨[0x48, 0x05, 0x00, 0x10, 0x00, 0x00], "add",
      .fixed "rax, 0x1000" [reg "rax" 8 .readWrite, imm 4096 8], ["rflags"]⟩,
    ⟨[0x48, 0x0f, 0xaf, 0xc3], "imul",
      .fixed "rax, rbx" [reg "rax" 8 .readWrite, reg "rbx" 8 .read], ["rflags"]⟩,
    ⟨[0x48, 0x0f, 0xb1, 0xd9], "cmpxchg",
      .fixed "rcx, rbx" [reg "rcx" 8 .write, reg "rbx" 8 .read], []⟩,
    ⟨[0x48, 0x0f, 0xba, 0xe0, 0x03], "bt", .fixed "rax, 3" [reg "rax" 8 .read, imm 3 1], ["rflags"]⟩,
    ⟨[0x48, 0x25, 0xff, 0x1f, 0x00, 0x00], "and",
      .fixed "rax, 0x1fff" [reg "rax" 8 .readWrite, imm 8191 8], ["rflags"]⟩,
    ⟨[0x48, 0x29, 0xc0], "sub",
      .fixed "rax, rax" [reg "rax" 8 .readWrite, reg "rax" 8 .read], ["rflags"]⟩,
    ⟨[0x48, 0x2d, 0xf0, 0xdf, 0xff, 0xff], "sub",
      .fixed "rax, -0x2010" [reg "rax" 8 .readWrite, imm (-8208) 8], ["rflags"]⟩,
    ⟨[0x48, 0x31, 0xc0], "xor",
      .fixed "rax, rax" [reg "rax" 8 .readWrite, reg "rax" 8 .read], ["rflags"]⟩,
    ⟨[0x48, 0x33, 0x44, 0x24, 0x18], "xor",
      .fixed "rax, qword ptr [rsp + 0x18]"
        [reg "rax" 8 .readWrite, mem (some "rsp") none 1 24 8 .read], ["rflags"]⟩,
    ⟨[0x48, 0x39, 0x18], "cmp",
      .fixed "qword ptr [rax], rbx" [mem (some "rax") none 1 0 8 .read, reg "rbx" 8 .read], ["rflags"]⟩,
    ⟨[0x48, 0x39, 0xd8], "cmp", .fixed "rax, rbx" [reg "rax" 8 .read, reg "rbx" 8 .read], ["rflags"]⟩,
    ⟨[0x48, 0x81, 0xe8, 0xff, 0xff, 0xff, 0x7f], "sub",
      .fixed "rax, 0x7fffffff" [reg "rax" 8 .readWrite, imm 2147483647 8], ["rflags"]⟩,
    ⟨[0x48, 0x83, 0xc0, 0x01], "add", .fixed "rax, 1" [reg "rax" 8 .readWrite, imm 1 8], ["rflags"]⟩,
    ⟨[0x48, 0x83, 0xc0, 0x02], "add", .fixed "rax, 2" [reg "rax" 8 .readWrite, imm 2 8], ["rflags"]⟩,
    ⟨[0x48, 0x83, 0xc0, 0x08], "add", .fixed "rax, 8" [reg "rax" 8 .readWrite, imm 8 8], ["rflags"]⟩,
    ⟨[0x48, 0x83, 0xc0, 0xf8], "add",
      .fixed "rax, -8" [reg "rax" 8 .readWrite, imm (-8) 8], ["rflags"]⟩,
    ⟨[0x48, 0x83, 0xc3, 0x02], "add", .fixed "rbx, 2" [reg "rbx" 8 .readWrite, imm 2 8], ["rflags"]⟩,
    ⟨[0x48, 0x83, 0xc4, 0x28], "add",
      .fixed "rsp, 0x28" [reg "rsp" 8 .readWrite, imm 40 8], ["rflags"]⟩,
    ⟨[0x48, 0x83, 0xc8, 0xff], "or",
      .fixed "rax, 0xffffffffffffffff" [reg "rax" 8 .readWrite, imm (-1) 8], ["rflags"]⟩,
    ⟨[0x48, 0x83, 0xe0, 0x0f], "and", .fixed "rax, 0xf" [reg "rax" 8 .readWrite, imm 15 8], ["rflags"]⟩,
    ⟨[0x48, 0x83, 0xe8, 0x04], "sub", .fixed "rax, 4" [reg "rax" 8 .readWrite, imm 4 8], ["rflags"]⟩,
    ⟨[0x48, 0x83, 0xe8, 0x08], "sub", .fixed "rax, 8" [reg "rax" 8 .readWrite, imm 8 8], ["rflags"]⟩,
    ⟨[0x48, 0x83, 0xe8, 0x80], "sub",
      .fixed "rax, -0x80" [reg "rax" 8 .readWrite, imm (-128) 8], ["rflags"]⟩,
    ⟨[0x48, 0x83, 0xe9, 0x01], "sub", .fixed "rcx, 1" [reg "rcx" 8 .readWrite, imm 1 8], ["rflags"]⟩,
    ⟨[0x48, 0x83, 0xec, 0x10], "sub",
      .fixed "rsp, 0x10" [reg "rsp" 8 .readWrite, imm 16 8], ["rflags"]⟩,
    ⟨[0x48, 0x83, 0xec, 0x20], "sub",
      .fixed "rsp, 0x20" [reg "rsp" 8 .readWrite, imm 32 8], ["rflags"]⟩,
    ⟨[0x48, 0x83, 0xf0, 0x05], "xor", .fixed "rax, 5" [reg "rax" 8 .readWrite, imm 5 8], ["rflags"]⟩,
    ⟨[0x48, 0x83, 0xf8, 0x01], "cmp", .fixed "rax, 1" [reg "rax" 8 .read, imm 1 8], ["rflags"]⟩,
    ⟨[0x48, 0x83, 0xf8, 0x40], "cmp", .fixed "rax, 0x40" [reg "rax" 8 .read, imm 64 8], ["rflags"]⟩,
    ⟨[0x48, 0x85, 0xc0], "test", .fixed "rax, rax" [reg "rax" 8 .read, reg "rax" 8 .read], ["rflags"]⟩,
    ⟨[0x48, 0xc1, 0xe0, 0x03], "shl", .fixed "rax, 3" [reg "rax" 8 .readWrite, imm 3 1], ["rflags"]⟩,
    ⟨[0x48, 0xd3, 0xf8], "sar",
      .fixed "rax, cl" [reg "rax" 8 .readWrite, reg "cl" 1 .read], ["rflags"]⟩,
    ⟨[0x48, 0xf7, 0xd0], "not", .fixed "rax" [reg "rax" 8 .readWrite], []⟩,
    ⟨[0x48, 0xf7, 0xd8], "neg", .fixed "rax" [reg "rax" 8 .readWrite], ["rflags"]⟩,
    ⟨[0x48, 0xf7, 0xe1], "mul", .fixed "rcx" [reg "rcx" 8 .read], ["rax", "rdx", "rflags"]⟩,
    ⟨[0x48, 0xf7, 0xe3], "mul", .fixed "rbx" [reg "rbx" 8 .read], ["rax", "rdx", "rflags"]⟩,
    ⟨[0x48, 0xf7, 0xeb], "imul", .fixed "rbx" [reg "rbx" 8 .read], ["rax", "rdx", "rflags"]⟩,
    ⟨[0x48, 0xf7, 0xf1], "div", .fixed "rcx" [reg "rcx" 8 .read], ["rax", "rdx", "rflags"]⟩,
    ⟨[0x48, 0xff, 0xc0], "inc", .fixed "rax" [reg "rax" 8 .readWrite], ["rflags"]⟩,
    ⟨[0x48, 0xff, 0xc9], "dec", .fixed "rcx" [reg "rcx" 8 .readWrite], ["rflags"]⟩,
    ⟨[0x66, 0x0f, 0xef, 0xc0], "pxor",
      .fixed "xmm0, xmm0" [reg "xmm0" 16 .readWrite, reg "xmm0" 16 .read], []⟩,
    ⟨[0x66, 0x0f, 0xef, 0xd2], "pxor",
      .fixed "xmm2, xmm2" [reg "xmm2" 16 .readWrite, reg "xmm2" 16 .read], []⟩,
    ⟨[0x66, 0x83, 0xc0, 0x04], "add", .fixed "ax, 4" [reg "ax" 2 .readWrite, imm 4 2], ["rflags"]⟩,
    ⟨[0x6b, 0xc3, 0x05], "imul",
      .fixed "eax, ebx, 5" [reg "eax" 4 .write, reg "ebx" 4 .read, imm 5 4], ["rflags"]⟩,
    ⟨[0x80, 0xc0, 0xff], "add", .fixed "al, 0xff" [reg "al" 1 .readWrite, imm 255 1], ["rflags"]⟩,
    ⟨[0x80, 0xe8, 0x80], "sub", .fixed "al, 0x80" [reg "al" 1 .readWrite, imm 128 1], ["rflags"]⟩,
    ⟨[0x81, 0xe3, 0xf0, 0xff, 0x00, 0x00], "and",
      .fixed "ebx, 0xfff0" [reg "ebx" 4 .readWrite, imm 65520 4], ["rflags"]⟩,
    ⟨[0x81, 0xe8, 0x00, 0x00, 0x00, 0x80], "sub",
      .fixed "eax, 0x80000000" [reg "eax" 4 .readWrite, imm 2147483648 4], ["rflags"]⟩,
    ⟨[0x83, 0x04, 0x25, 0x00, 0x10, 0x00, 0x00, 0x01], "add",
      .fixed "dword ptr [0x1000], 1" [mem none none 1 4096 4 .readWrite, imm 1 4], ["rflags"]⟩,
    ⟨[0x83, 0xc0, 0x01], "add", .fixed "eax, 1" [reg "eax" 4 .readWrite, imm 1 4], ["rflags"]⟩,
    ⟨[0x83, 0xc0, 0x04], "add", .fixed "eax, 4" [reg "eax" 4 .readWrite, imm 4 4], ["rflags"]⟩,
    ⟨[0x83, 0xc0, 0x08], "add", .fixed "eax, 8" [reg "eax" 4 .readWrite, imm 8 4], ["rflags"]⟩,
    ⟨[0x83, 0xc0, 0xff], "add", .fixed "eax, -1" [reg "eax" 4 .readWrite, imm (-1) 4], ["rflags"]⟩,
    ⟨[0x83, 0xc3, 0x02], "add", .fixed "ebx, 2" [reg "ebx" 4 .readWrite, imm 2 4], ["rflags"]⟩,
    ⟨[0x83, 0xe0, 0x03], "and", .fixed "eax, 3" [reg "eax" 4 .readWrite, imm 3 4], ["rflags"]⟩,
    ⟨[0x83, 0xe9, 0x01], "sub", .fixed "ecx, 1" [reg "ecx" 4 .readWrite, imm 1 4], ["rflags"]⟩,
    ⟨[0x83, 0xf8, 0x03], "cmp", .fixed "eax, 3" [reg "eax" 4 .read, imm 3 4], ["rflags"]⟩,
    ⟨[0x83, 0xf8, 0x05], "cmp", .fixed "eax, 5" [reg "eax" 4 .read, imm 5 4], ["rflags"]⟩,
    ⟨[0x85, 0xc0], "test", .fixed "eax, eax" [reg "eax" 4 .read, reg "eax" 4 .read], ["rflags"]⟩,
    ⟨[0x85, 0xc9], "test", .fixed "ecx, ecx" [reg "ecx" 4 .read, reg "ecx" 4 .read], ["rflags"]⟩,
    ⟨[0x85, 0xff], "test", .fixed "edi, edi" [reg "edi" 4 .read, reg "edi" 4 .read], ["rflags"]⟩,
    ⟨[0xa8, 0x01], "test", .fixed "al, 1" [reg "al" 1 .readWrite, imm 1 1], ["rflags"]⟩,
    ⟨[0xc1, 0xbb, 0x2e, 0x10, 0x00, 0x00, 0xc3], "sar",
      .fixed "dword ptr [rbx + 0x102e], 0xc3"
        [mem (some "rbx") none 1 4142 4 .readWrite, imm 195 1], ["rflags"]⟩,
    ⟨[0xd0, 0x75, 0x00], "sal",
      .fixed "byte ptr [rbp], 1" [mem (some "rbp") none 1 0 1 .readWrite, imm 1 1], ["rflags"]⟩,
    ⟨[0xd0, 0xc3], "rol", .fixed "bl, 1" [reg "bl" 1 .readWrite, imm 1 1], ["rflags"]⟩,
    ⟨[0xd1, 0xe8], "shr", .fixed "eax, 1" [reg "eax" 4 .readWrite, imm 1 4], ["rflags"]⟩,
    ⟨[0xf0, 0x48, 0x0f, 0xc1, 0x03], "lock xadd",
      .fixed "qword ptr [rbx], rax"
        [mem (some "rbx") none 1 0 8 .readWrite, reg "rax" 8 .readWrite], []⟩,
    ⟨[0xf0, 0xff, 0x00], "lock inc",
      .fixed "dword ptr [rax]" [mem (some "rax") none 1 0 4 .readWrite], ["rflags"]⟩,
    ⟨[0xf3, 0x48, 0x0f, 0xb8, 0xc3], "popcnt",
      .fixed "rax, rbx" [reg "rax" 8 .write, reg "rbx" 8 .read], ["rflags"]⟩,
    ⟨[0xff, 0xc0], "inc", .fixed "eax" [reg "eax" 4 .readWrite], ["rflags"]⟩,
    ⟨[0xff, 0xc8], "dec", .fixed "eax" [reg "eax" 4 .readWrite], ["rflags"]⟩
  ]

end ReachableCode.X86.Catalogue
