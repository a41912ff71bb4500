import ReachableCode.X86.Catalogue.Entry

/-!
Encodings that transfer control: jumps, branches, loops, calls, returns and traps.
-/

namespace ReachableCode.X86.Catalogue

open Entry

/-- The entries of this kind in 32-bit mode. -/
def narrowTransfers : List Entry :=
  [
    ⟨[0x0f, 0x05], "syscall", .fixed "" [], []⟩,
    ⟨[0x0f, 0x0b], "ud2", .fixed "" [], []⟩,
    ⟨[0x0f, 0x84, 0xfc, 0xff, 0xff, 0xff], "je", .relative (-4) 4, []⟩,
    ⟨[0x0f, 0xff], "ud0", .fixed "" [], []⟩,
    ⟨[0x2e, 0x74, 0x05], "je", .relative 5 4, []⟩,
    ⟨[0x3e, 0xff, 0xe0], "jmp", .fixed "eax" [reg "eax" 4 .read], []⟩,
    ⟨[0x66, 0xc3], "ret", .fixed "" [], ["esp"]⟩,
    ⟨[0x66, 0xcf], "iret", .fixed "" [], []⟩,
    ⟨[0x66, 0xe9, 0x05, 0x00], "jmp", .relative 5 2, []⟩,
    ⟨[0x66, 0xff, 0x20], "jmp", .fixed "word ptr [eax]" [mem (some "eax") none 1 0 2 .read], []⟩,
    ⟨[0x66, 0xff, 0xe0], "jmp", .fixed "ax" [reg "ax" 2 .read], []⟩,
    ⟨[0x67, 0xe3, 0x02], "jcxz", .relative 2 4, []⟩,
    ⟨[0x67, 0xe3, 0x10], "jcxz", .relative 16 4, []⟩,
    ⟨[0x74, 0x03], "je", .relative 3 4, []⟩,
    ⟨[0x74, 0x80], "je", .relative (-128) 4, []⟩,
    ⟨[0x77, 0x15], "ja", .relative 21 4, []⟩,
    ⟨[0x9a, 0x78, 0x56, 0x34, 0x12, 0x10, 0x00], "lcall",
      .fixed "0x10, 0x12345678" [imm 16 2, imm 305419896 4], []⟩,
    ⟨[0xc2, 0x04, 0x00], "ret", .fixed "4" [imm 4 4], ["esp"]⟩,
    ⟨[0xc3], "ret", .fixed "" [], ["esp"]⟩,
    ⟨[0xca, 0x04, 0x00], "retf", .fixed "4" [imm 4 4], []⟩,
    ⟨[0xca, 0x08, 0x00], "retf", .fixed "8" [imm 8 4], []⟩,
    ⟨[0xcb], "retf", .fixed "" [], []⟩,
    ⟨[0xcc], "int3", .fixed "" [], []⟩,
    ⟨[0xcd, 0x03], "int", .fixed "3" [imm 3 1], []⟩,
    ⟨[0xcd, 0x80], "int", .fixed "0x80" [imm 128 1], []⟩,
    ⟨[0xce], "into", .fixed "" [], []⟩,
    ⟨[0xcf], "iretd", .fixed "" [], []⟩,
    ⟨[0xe0, 0xc3], "loopne", .relative (-61) 4, ["ecx"]⟩,
    ⟨[0xe0, 0xfc], "loopne", .relative (-4) 4, ["ecx"]⟩,
    ⟨[0xe0, 0xfe], "loopne", .relative (-2) 4, ["ecx"]⟩,
    ⟨[0xe1, 0xfb], "loope", .relative (-5) 4, ["ecx"]⟩,
    ⟨[0xe1, 0xfc], "loope", .relative (-4) 4, ["ecx"]⟩,
    ⟨[0xe2, 0xfe], "loop", .relative (-2) 4, ["ecx"]⟩,
    ⟨[0xe3, 0x01], "jecxz", .relative 1 4, []⟩,
    ⟨[0xe3, 0x02], "jecxz", .relative 2 4, []⟩,
    ⟨[0xe3, 0x10], "jecxz", .relative 16 4, []⟩,
    ⟨[0xe8, 0x00, 0x00, 0x00, 0x00], "call", .relative 0 4, ["esp"]⟩,
    ⟨[0xe8, 0x02, 0x00, 0x00, 0x00], "call", .relative 2 4, ["esp"]⟩,
    ⟨[0xe8, 0x07, 0x00, 0x00, 0x00], "call", .relative 7 4, ["esp"]⟩,
    ⟨[0xe8, 0xf0, 0xff, 0xff, 0xff], "call", .relative (-16) 4, ["esp"]⟩,
    ⟨[0xe8, 0xfb, 0x00, 0x00, 0x00], "call", .relative 251 4, ["esp"]⟩,
    ⟨[0xe9, 0x0b, 0x00, 0x00, 0x00], "jmp", .relative 11 4, []⟩,
    ⟨[0xe9, 0xfa, 0xff, 0xff, 0xff], "jmp", .relative (-6) 4, []⟩,
    ⟨[0xea, 0x78, 0x56, 0x34, 0x12, 0x10, 0x00], "ljmp",
      .fixed "0x10:0x12345678" [imm 16 2, imm 305419896 4], []⟩,
    ⟨[0xeb, 0x01], "jmp", .relative 1 4, []⟩,
    ⟨[0xeb, 0x10], "jmp", .relative 16 4, []⟩,
    ⟨[0xf1], "int1", .fixed "" [], ["eflags"]⟩,
    ⟨[0xf2, 0x74, 0x05], "bnd je", .relative 5 4, []⟩,
    ⟨[0xf2, 0xc3], "bnd ret", .fixed "" [], ["esp"]⟩,
    ⟨[0xf2, 0xe8, 0x00, 0x00, 0x00, 0x00], "bnd call", .relative 0 4, ["esp"]⟩,
    ⟨[0xf2, 0xeb, 0x05], "bnd jmp", .relative 5 4, []⟩,
    ⟨[0xf2, 0xf3, 0xc3], "ret", .fixed "" [], ["esp"]⟩,
    ⟨[0xf2, 0xff, 0x25, 0x00, 0x00, 0x00, 0x00], "bnd jmp",
      .fixed "dword ptr [0]" [mem none none 1 0 4 .read], []⟩,
    ⟨[0xf3, 0xc3], "ret", .fixed "" [], ["esp"]⟩,
    ⟨[0xf4], "hlt", .fixed "" [], []⟩,
    ⟨[0xff, 0x15, 0x00, 0x20, 0x00, 0x00], "call",
      .fixed "dword ptr [0x2000]" [mem none none 1 8192 4 .read], ["esp"]⟩,
    ⟨[0xff, 0x15, 0x00, 0x40, 0x00, 0x00], "call",
      .fixed "dword ptr [0x4000]" [mem none none 1 16384 4 .read], ["esp"]⟩,
    ⟨[0xff, 0x15, 0x00, 0x40, 0x40, 0x00], "call",
      .fixed "dword ptr [0x404000]" [mem none none 1 4210688 4 .read], ["esp"]⟩,
    ⟨[0xff, 0x15, 0x10, 0x20, 0x00, 0x00], "call",
      .fixed "dword ptr [0x2010]" [mem none none 1 8208 4 .read], ["esp"]⟩,
    ⟨[0xff, 0x18], "call", .fixed "ptr [eax]" [mem (some "eax") none 1 0 4 .read], []⟩,
    ⟨[0xff, 0x24, 0x85, 0x00, 0x20, 0x00, 0x00], "jmp",
      .fixed "dword ptr [eax*4 + 0x2000]" [mem none (some "eax") 4 8192 4 .read], []⟩,
    ⟨[0xff, 0x24, 0x85, 0x00, 0x40, 0x00, 0x00], "jmp",
      .fixed "dword ptr [eax*4 + 0x4000]" [mem none (some "eax") 4 16384 4 .read], []⟩,
    ⟨[0xff, 0x25, 0x00, 0x40, 0x00, 0x00], "jmp",
      .fixed "dword ptr [0x4000]" [mem none none 1 16384 4 .read], []⟩,
    ⟨[0xff, 0x25, 0x10, 0x00, 0x00, 0x00], "jmp",
      .fixed "dword ptr [0x10]" [mem none none 1 16 4 .read], []⟩,
    ⟨[0xff, 0x28], "jmp", .fixed "ptr [eax]" [mem (some "eax") none 1 0 6 .read], []⟩,
    ⟨[0xff, 0x2b], "jmp", .fixed "ptr [ebx]" [mem (some "ebx") none 1 0 6 .read], []⟩,
    ⟨[0xff, 0x53, 0x04], "call",
      .fixed "dword ptr [ebx + 4]" [mem (some "ebx") none 1 4 4 .read], ["esp"]⟩,
    ⟨[0xff, 0x6b, 0x08], "jmp", .fixed "ptr [ebx + 8]" [mem (some "ebx") none 1 8 6 .read], []⟩,
    ⟨[0xff, 0xd0], "call", .fixed "eax" [reg "eax" 4 .read], ["esp"]⟩,
    ⟨[0xff, 0xd3], "call", .fixed "ebx" [reg "ebx" 4 .read], ["esp"]⟩,
    ⟨[0xff, 0xe0], "jmp", .fixed "eax" [reg "eax" 4 .read], []⟩,
    ⟨[0xff, 0xe2], "jmp", .fixed "edx" [reg "edx" 4 .read], []⟩,
    ⟨[0xff, 0xe3], "jmp", .fixed "ebx" [reg "ebx" 4 .read], []⟩,
    ⟨[0xff, 0xe6], "jmp", .fixed "esi" [reg "esi" 4 .read], []⟩
  ]

/-- The entries of this kind in 64-bit mode. -/
def wideTransfers : List Entry :=
  [
    ⟨[0x0f, 0x05], "syscall", .fixed "" [], []⟩,
    ⟨[0x0f, 0x0b], "ud2", .fixed "" [], []⟩,
    ⟨[0x0f, 0x34], "sysenter", .fixed "" [], []⟩,
    ⟨[0x0f, 0x84, 0x0a, 0x00, 0x00, 0x00], "je", .relative 10 8, []⟩,
    ⟨[0x0f, 0x84, 0xfa, 0x3f, 0x00, 0x00], "je", .relative 16378 8, []⟩,
    ⟨[0x0f, 0x85, 0xfa, 0x3f, 0x00, 0x00], "jne", .relative 16378 8, []⟩,
    ⟨[0x0f, 0x8a, 0xfe, 0xff, 0xff, 0xff], "jp", .relative (-2) 8, []⟩,
    ⟨[0x0f, 0x8f, 0xfa, 0xff, 0xff, 0xff], "jg", .relative (-6) 8, []⟩,
    ⟨[0x0f, 0xff], "ud0", .fixed "" [], []⟩,
    ⟨[0x2e, 0x74, 0x05], "je", .relative 5 8, []⟩,
    ⟨[0x3e, 0xff, 0xe0], "jmp", .fixed "rax" [reg "rax" 8 .read], []⟩,
    ⟨[0x40, 0xeb, 0x00], "jmp", .relative 0 8, []⟩,
    ⟨[0x41, 0xff, 0xd7], "call", .fixed "r15" [reg "r15" 8 .read], ["rsp"]⟩,
    ⟨[0x41, 0xff, 0xe3], "jmp", .fixed "r11" [reg "r11" 8 .read], []⟩,
    ⟨[0x41, 0xff, 0xe4], "jmp", .fixed "r12" [reg "r12" 8 .read], []⟩,
    ⟨[0x48, 0xcf], "iretq", .fixed "" [], []⟩,
    ⟨[0x48, 0xff, 0x28], "ljmp", .fixed "[rax]" [memUntold (some "rax") none 1 0 10], []⟩,
    ⟨[0x66, 0xc3], "ret", .fixed "" [], ["rsp"]⟩,
    ⟨[0x66, 0xcf], "iret", .fixed "" [], []⟩,
    ⟨[0x67, 0xe3, 0x02], "jecxz", .relative 2 8, []⟩,
    ⟨[0x67, 0xe3, 0x10], "jecxz", .relative 16 8, []⟩,
    ⟨[0x72, 0xf1], "jb", .relative (-15) 8, []⟩,
    ⟨[0x74, 0x02], "je", .relative 2 8, []⟩,
    ⟨[0x74, 0x06], "je", .relative 6 8, []⟩,
    ⟨[0x74, 0x07], "je", .relative 7 8, []⟩,
    ⟨[0x74, 0x80], "je", .relative (-128) 8, []⟩,
    ⟨[0x74, 0xba], "je", .relative (-70) 8, []⟩,
    ⟨[0x74, 0xc7], "je", .relative (-57) 8, []⟩,
    ⟨[0x74, 0xc9], "je", .relative (-55) 8, []⟩,
    ⟨[0x74, 0xcb], "je", .relative (-53) 8, []⟩,
    ⟨[0x74, 0xdb], "je", .relative (-37) 8, []⟩,
    ⟨[0x74, 0xe1], "je", .relative (-31) 8, []⟩,
    ⟨[0x74, 0xe4], "je", .relative (-28) 8, []⟩,
    ⟨[0x74, 0xe9], "je", .relative (-23) 8, []⟩,
    ⟨[0x74, 0xec], "je", .relative (-20) 8, []⟩,
    ⟨[0x74, 0xee], "je", .relative (-18) 8, []⟩,
    ⟨[0x74, 0xf1], "je", .relative (-15) 8, []⟩,
    ⟨[0x74, 0xf2], "je", .relative (-14) 8, []⟩,
    ⟨[0x74, 0xf4], "je", .relative (-12) 8, []⟩,
    ⟨[0x74, 0xf5], "je", .relative (-11) 8, []⟩,
    ⟨[0x74, 0xf6], "je", .relative (-10) 8, []⟩,
    ⟨[0x74, 0xf7], "je", .relative (-9) 8, []⟩,
    ⟨[0x74, 0xfa], "je", .relative (-6) 8, []⟩,
    ⟨[0x74, 0xfb], "je", .relative (-5) 8, []⟩,
    ⟨[0x74, 0xfd], "je", .relative (-3) 8, []⟩,
    ⟨[0x75, 0x00], "jne", .relative 0 8, []⟩,
    ⟨[0x75, 0x04], "jne", .relative 4 8, []⟩,
    ⟨[0x75, 0x05], "jne", .relative 5 8, []⟩,
    ⟨[0x75, 0x15], "jne", .relative 21 8, []⟩,
    ⟨[0x75, 0x17], "jne", .relative 23 8, []⟩,
    ⟨[0x75, 0x23], "jne", .relative 35 8, []⟩,
    ⟨[0x75, 0x3b], "jne", .relative 59 8, []⟩,
    ⟨[0x75, 0xf6], "jne", .relative (-10) 8, []⟩,
    ⟨[0x75, 0xf8], "jne", .relative (-8) 8, []⟩,
    ⟨[0xc2, 0x08, 0x00], "ret", .fixed "8" [imm 8 8], ["rsp"]⟩,
    ⟨[0xc3], "ret", .fixed "" [], ["rsp"]⟩,
    ⟨[0xca, 0x08, 0x00], "retf", .fixed "8" [imm 8 8], []⟩,
    ⟨[0xcb], "retf", .fixed "" [], []⟩,
    ⟨[0xcc], "int3", .fixed "" [], []⟩,
    ⟨[0xcd, 0x03], "int", .fixed "3" [imm 3 1], []⟩,
    ⟨[0xcd, 0x80], "int", .fixed "0x80" [imm 128 1], []⟩,
    ⟨[0xcf], "iretd", .fixed "" [], []⟩,
    ⟨[0xe0, 0x01], "loopne", .relative 1 8, ["rcx"]⟩,
    ⟨[0xe0, 0x89], "loopne", .relative (-119) 8, ["rcx"]⟩,
    ⟨[0xe0, 0xc3], "loopne", .relative (-61) 8, ["rcx"]⟩,
    ⟨[0xe0, 0xfc], "loopne", .relative (-4) 8, ["rcx"]⟩,
    ⟨[0xe1, 0x48], "loope", .relative 72 8, ["rcx"]⟩,
    ⟨[0xe1, 0x90], "loope", .relative (-112) 8, ["rcx"]⟩,
    ⟨[0xe1, 0xfc], "loope", .relative (-4) 8, ["rcx"]⟩,
    ⟨[0xe2, 0xfe], "loop", .relative (-2) 8, ["rcx"]⟩,
    ⟨[0xe3, 0x01], "jrcxz", .relative 1 8, []⟩,
    ⟨[0xe3, 0x02], "jrcxz", .relative 2 8, []⟩,
    ⟨[0xe3, 0x10], "jrcxz", .relative 16 8, []⟩,
    ⟨[0xe8, 0x00, 0x00, 0x00, 0x00], "call", .relative 0 8, ["rsp"]⟩,
    ⟨[0xe8, 0x01, 0x00, 0x00, 0x00], "call", .relative 1 8, ["rsp"]⟩,
    ⟨[0xe8, 0x02, 0x00, 0x00, 0x00], "call", .relative 2 8, ["rsp"]⟩,
    ⟨[0xe8, 0x03, 0x00, 0x00, 0x00], "call", .relative 3 8, ["rsp"]⟩,
    ⟨[0xe8, 0x04, 0x00, 0x00, 0x00], "call", .relative 4 8, ["rsp"]⟩,
    ⟨[0xe8, 0x09, 0x00, 0x00, 0x00], "call", .relative 9 8, ["rsp"]⟩,
    ⟨[0xe8, 0x0d, 0x00, 0x00, 0x00], "call", .relative 13 8, ["rsp"]⟩,
    ⟨[0xe8, 0x10, 0x00, 0x00, 0x00], "call", .relative 16 8, ["rsp"]⟩,
    ⟨[0xe8, 0x1b, 0x00, 0x00, 0x00], "call", .relative 27 8, ["rsp"]⟩,
    ⟨[0xe8, 0x36, 0x00, 0x00, 0x00], "call", .relative 54 8, ["rsp"]⟩,
    ⟨[0xe8, 0xe5, 0xff, 0xff, 0xff], "call", .relative (-27) 8, ["rsp"]⟩,
    ⟨[0xe8, 0xf0, 0xff, 0xff, 0xff], "call", .relative (-16) 8, ["rsp"]⟩,
    ⟨[0xe8, 0xf5, 0x4f, 0x00, 0x00], "call", .relative 20469 8, ["rsp"]⟩,
    ⟨[0xe8, 0xfb, 0x3f, 0x00, 0x00], "call", .relative 16379 8, ["rsp"]⟩,
    ⟨[0xe8, 0xfb, 0xff, 0xff, 0xff], "call", .relative (-5) 8, ["rsp"]⟩,
    ⟨[0xe9, 0x4b, 0x00, 0x00, 0x00], "jmp", .relative 75 8, []⟩,
    ⟨[0xe9, 0xf6, 0xff, 0xff, 0xff], "jmp", .relative (-10) 8, []⟩,
    ⟨[0xe9, 0xfb, 0x3f, 0x00, 0x00], "jmp", .relative 16379 8, []⟩,
    ⟨[0xe9, 0xfb, 0xf8, 0xff, 0xff], "jmp", .relative (-1797) 8, []⟩,
    ⟨[0xe9, 0xfb, 0xff, 0xff, 0xff], "jmp", .relative (-5) 8, []⟩,
    ⟨[0xeb, 0x02], "jmp", .relative 2 8, []⟩,
    ⟨[0xeb, 0x03], "jmp", .relative 3 8, []⟩,
    ⟨[0xeb, 0x05], "jmp", .relative 5 8, []⟩,
    ⟨[0xeb, 0x07], "jmp", .relative 7 8, []⟩,
    ⟨[0xeb, 0x0b], "jmp", .relative 11 8, []⟩,
    ⟨[0xeb, 0x0f], "jmp", .relative 15 8, []⟩,
    ⟨[0xeb, 0x10], "jmp", .relative 16 8, []⟩,
    ⟨[0xeb, 0x11], "jmp", .relative 17 8, []⟩,
    ⟨[0xeb, 0x17], "jmp", .relative 23 8, []⟩,
    ⟨[0xeb, 0x1b], "jmp", .relative 27 8, []⟩,
    ⟨[0xeb, 0x1e], "jmp", .relative 30 8, []⟩,
    ⟨[0xeb, 0x23], "jmp", .relative 35 8, []⟩,
    ⟨[0xeb, 0x2c], "jmp", .relative 44 8, []⟩,
    ⟨[0xeb, 0x31], "jmp", .relative 49 8, []⟩,
    ⟨[0xeb, 0x37], "jmp", .relative 55 8, []⟩,
    ⟨[0xeb, 0x39], "jmp", .relative 57 8, []⟩,
    ⟨[0xeb, 0xff], "jmp", .relative (-1) 8, []⟩,
    ⟨[0xf1], "int1", .fixed "" [], ["rflags"]⟩,
    ⟨[0xf2, 0x74, 0x05], "bnd je", .relative 5 8, []⟩,
    ⟨[0xf2, 0xc3], "bnd ret", .fixed "" [], ["rsp"]⟩,
    ⟨[0xf2, 0xe8, 0x00, 0x00, 0x00, 0x00], "bnd call", .relative 0 8, ["rsp"]⟩,
    ⟨[0xf2, 0xe8, 0xf5, 0xff, 0xff, 0xff], "bnd call", .relative (-11) 8, ["rsp"]⟩,
    ⟨[0xf2, 0xeb, 0x01], "bnd jmp", .relative 1 8, []⟩,
    ⟨[0xf2, 0xeb, 0x05], "bnd jmp", .relative 5 8, []⟩,
    ⟨[0xf2, 0xf3, 0xc3], "ret", .fixed "" [], ["rsp"]⟩,
    ⟨[0xf2, 0xff, 0x25, 0x00, 0x00, 0x00, 0x00], "bnd jmp",
      .fixed "qword ptr [rip]" [mem (some "rip") none 1 0 8 .read], []⟩,
    ⟨[0xf3, 0xc3], "ret", .fixed "" [], ["rsp"]⟩,
    ⟨[0xf4], "hlt", .fixed "" [], []⟩,
    ⟨[0xff, 0x13], "call", .fixed "qword ptr [rbx]" [mem (some "rbx") none 1 0 8 .read], ["rsp"]⟩,
    ⟨[0xff, 0x15, 0x04, 0x00, 0x00, 0x00], "call",
      .fixed "qword ptr [rip + 4]" [mem (some "rip") none 1 4 8 .read], ["rsp"]⟩,
    ⟨[0xff, 0x15, 0xf4, 0x0f, 0x00, 0x00], "call",
      .fixed "qword ptr [rip + 0xff4]" [mem (some "rip") none 1 4084 8 .read], ["rsp"]⟩,
    ⟨[0xff, 0x15, 0xfa, 0x0f, 0x00, 0x00], "call",
      .fixed "qword ptr [rip + 0xffa]" [mem (some "rip") none 1 4090 8 .read], ["rsp"]⟩,
    ⟨[0xff, 0x15, 0xfb, 0x0f, 0x00, 0x00], "call",
      .fixed "qword ptr [rip + 0xffb]" [mem (some "rip") none 1 4091 8 .read], ["rsp"]⟩,
    ⟨[0xff, 0x18], "call", .fixed "ptr [rax]" [mem (some "rax") none 1 0 8 .read], []⟩,
    ⟨[0xff, 0x1b], "call", .fixed "ptr [rbx]" [mem (some "rbx") none 1 0 8 .read], []⟩,
    ⟨[0xff, 0x20], "jmp", .fixed "qword ptr [rax]" [mem (some "rax") none 1 0 8 .read], []⟩,
    ⟨[0xff, 0x24, 0xc5, 0x00, 0x20, 0x00, 0x00], "jmp",
      .fixed "qword ptr [rax*8 + 0x2000]" [mem none (some "rax") 8 8192 8 .read], []⟩,
    ⟨[0xff, 0x24, 0xc5, 0x00, 0x40, 0x00, 0x00], "jmp",
      .fixed "qword ptr [rax*8 + 0x4000]" [mem none (some "rax") 8 16384 8 .read], []⟩,
    ⟨[0xff, 0x24, 0xc5, 0x08, 0x20, 0x00, 0x00], "jmp",
      .fixed "qword ptr [rax*8 + 0x2008]" [mem none (some "rax") 8 8200 8 .read], []⟩,
    ⟨[0xff, 0x24, 0xcd, 0x00, 0x20, 0x00, 0x00], "jmp",
      .fixed "qword ptr [rcx*8 + 0x2000]" [mem none (some "rcx") 8 8192 8 .read], []⟩,
    ⟨[0xff, 0x24, 0xd8], "jmp",
      .fixed "qword ptr [rax + rbx*8]" [mem (some "rax") (some "rbx") 8 0 8 .read], []⟩,
    ⟨[0xff, 0x25, 0x10, 0x00, 0x00, 0x00], "jmp",
      .fixed "qword ptr [rip + 0x10]" [mem (some "rip") none 1 16 8 .read], []⟩,
    ⟨[0xff, 0x25, 0xf4, 0x0f, 0x00, 0x00], "jmp",
      .fixed "qword ptr [rip + 0xff4]" [mem (some "rip") none 1 4084 8 .read], []⟩,
    ⟨[0xff, 0x25, 0xfa, 0x0f, 0x00, 0x00], "jmp",
      .fixed "qword ptr [rip + 0xffa]" [mem (some "rip") none 1 4090 8 .read], []⟩,
    ⟨[0xff, 0x28], "jmp", .fixed "ptr [rax]" [mem (some "rax") none 1 0 8 .read], []⟩,
    ⟨[0xff, 0x2b], "jmp", .fixed "ptr [rbx]" [mem (some "rbx") none 1 0 8 .read], []⟩,
    ⟨[0xff, 0x6b, 0x08], "jmp", .fixed "ptr [rbx + 8]" [mem (some "rbx") none 1 8 8 .read], []⟩,
    ⟨[0xff, 0xd0], "call", .fixed "rax" [reg "rax" 8 .read], ["rsp"]⟩,
    ⟨[0xff, 0xd3], "call", .fixed "rbx" [reg "rbx" 8 .read], ["rsp"]⟩,
    ⟨[0xff, 0xe0], "jmp", .fixed "rax" [reg "rax" 8 .read], []⟩,
    ⟨[0xff, 0xe1], "jmp", .fixed "rcx" [reg "rcx" 8 .read], []⟩,
    ⟨[0xff, 0xe2], "jmp", .fixed "rdx" [reg "rdx" 8 .read], []⟩,
    ⟨[0xff, 0xe3], "jmp", .fixed "rbx" [reg "rbx" 8 .read], []⟩,
    ⟨[0xff, 0xe4], "jmp", .fixed "rsp" [reg "rsp" 8 .read], []⟩,
    ⟨[0xff, 0xe6], "jmp", .fixed "rsi" [reg "rsi" 8 .read], []⟩
  ]

end ReachableCode.X86.Catalogue
