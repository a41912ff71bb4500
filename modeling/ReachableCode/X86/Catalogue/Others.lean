import ReachableCode.X86.Catalogue.Entry

/-!
Encodings of the stack, of strings, of the machine state, and those that do nothing.
-/

namespace ReachableCode.X86.Catalogue

open Entry

/-- The entries of this kind in 32-bit mode. -/
def narrowOthers : List Entry :=
  [
    ⟨[0x06], "push", .fixed "es" [regUntold "es" 2], []⟩,
    ⟨[0x07], "pop", .fixed "es" [reg "es" 2 .write], []⟩,
    ⟨[0x0f, 0x01, 0xd0], "xgetbv", .fixed "" [], ["edx", "eax"]⟩,
    ⟨[0x0f, 0x0d, 0x00], "prefetch", .fixed "byte ptr [eax]" [mem (some "eax") none 1 0 1 .read], []⟩,
    ⟨[0x0f, 0x1f, 0x00], "nop", .fixed "dword ptr [eax]" [mem (some "eax") none 1 0 4 .read], []⟩,
    ⟨[0x0f, 0x1f, 0x84, 0x00, 0x00, 0x00, 0x00, 0x00], "nop",
      .fixed "dword ptr [eax + eax]" [mem (some "eax") (some "eax") 1 0 4 .read], []⟩,
    ⟨[0x0f, 0xa2], "cpuid", .fixed "" [], ["eax", "ebx", "ecx", "edx"]⟩,
    ⟨[0x0f, 0xc7, 0xf0], "rdrand", .fixed "eax" [reg "eax" 4 .write], ["eflags"]⟩,
    ⟨[0x1f], "pop", .fixed "ds" [reg "ds" 2 .write], []⟩,
    ⟨[0x50], "push", .fixed "eax" [reg "eax" 4 .read], ["esp"]⟩,
    ⟨[0x55], "push", .fixed "ebp" [reg "ebp" 4 .read], ["esp"]⟩,
    ⟨[0x58], "pop", .fixed "eax" [reg "eax" 4 .write], ["esp"]⟩,
    ⟨[0x5b], "pop", .fixed "ebx" [reg "ebx" 4 .write], ["esp"]⟩,
    ⟨[0x60], "pushal", .fixed "" [], ["esp"]⟩,
    ⟨[0x61], "popal", .fixed "" [], ["edi", "esi", "ebp", "ebx", "edx", "ecx", "eax", "esp"]⟩,
    ⟨[0x62, 0x03], "bound",
      .fixed "eax, qword ptr [ebx]" [reg "eax" 4 .write, mem (some "ebx") none 1 0 8 .read], []⟩,
    ⟨[0x63, 0xc0], "arpl", .fixed "ax, ax" [reg "ax" 2 .write, reg "ax" 2 .read], []⟩,
    ⟨[0x66, 0x0f, 0x1f, 0x44, 0x00, 0x00], "nop",
      .fixed "word ptr [eax + eax]" [mem (some "eax") (some "eax") 1 0 2 .read], []⟩,
    ⟨[0x66, 0x66, 0x66, 0x66, 0x66, 0x66, 0x66, 0x66, 0x66, 0x66, 0x66, 0x66, 0x66, 0x66, 0x90], "nop",
      .fixed "" [], []⟩,
    ⟨[0x66, 0x90], "nop", .fixed "" [], []⟩,
    ⟨[0x68, 0xff, 0xff, 0xff, 0xff], "push", .fixed "0xffffffff" [imm 4294967295 4], ["esp"]⟩,
    ⟨[0x6a, 0x80], "push", .fixed "-0x80" [imm (-128) 4], ["esp"]⟩,
    ⟨[0x8f, 0x00], "pop", .fixed "dword ptr [eax]" [mem (some "eax") none 1 0 4 .write], ["esp"]⟩,
    ⟨[0x90], "nop", .fixed "" [], []⟩,
    ⟨[0x9b], "wait", .fixed "" [], []⟩,
    ⟨[0x9c], "pushfd", .fixed "" [], ["esp"]⟩,
    ⟨[0x9d], "popfd", .fixed "" [], ["esp", "eflags"]⟩,
    ⟨[0xc5, 0x03], "lds",
      .fixed "eax, ptr [ebx]" [reg "eax" 4 .write, mem (some "ebx") none 1 0 4 .read], []⟩,
    ⟨[0xc7, 0xf8, 0x00, 0x00, 0x00, 0x00], "xbegin", .fixed "0x1006" [imm 4102 4], ["eax"]⟩,
    ⟨[0xc8, 0x08, 0x00, 0x00], "enter", .fixed "8, 0" [imm 8 4, imm 0 4], []⟩,
    ⟨[0xc9], "leave", .fixed "" [], ["ebp", "esp"]⟩,
    ⟨[0xd7], "xlatb", .fixed "" [], []⟩,
    ⟨[0xdb, 0xe3], "fninit", .fixed "" [], ["fpsw"]⟩,
    ⟨[0xec], "in", .fixed "al, dx" [reg "al" 1 .write, reg "dx" 2 .read], ["al"]⟩,
    ⟨[0xee], "out", .fixed "dx, al" [reg "dx" 2 .read, reg "al" 1 .read], []⟩,
    ⟨[0xf3, 0x0f, 0x1e, 0xfa], "endbr64", .fixed "" [], []⟩,
    ⟨[0xf3, 0x0f, 0x1e, 0xfb], "endbr32", .fixed "" [], []⟩,
    ⟨[0xf3, 0x90], "pause", .fixed "" [], []⟩
  ]

/-- The entries of this kind in 64-bit mode. -/
def wideOthers : List Entry :=
  [
    ⟨[0x0f, 0x01, 0xd0], "xgetbv", .fixed "" [], ["edx", "eax"]⟩,
    ⟨[0x0f, 0x0d, 0x00], "prefetch", .fixed "byte ptr [rax]" [mem (some "rax") none 1 0 1 .read], []⟩,
    ⟨[0x0f, 0x1f, 0x00], "nop", .fixed "dword ptr [rax]" [mem (some "rax") none 1 0 4 .read], []⟩,
    ⟨[0x0f, 0x1f, 0x84, 0x00, 0x00, 0x00, 0x00, 0x00], "nop",
      .fixed "dword ptr [rax + rax]" [mem (some "rax") (some "rax") 1 0 4 .read], []⟩,
    ⟨[0x0f, 0x31], "rdtsc", .fixed "" [], ["rax", "rdx"]⟩,
    ⟨[0x0f, 0xa2], "cpuid", .fixed "" [], ["eax", "ebx", "ecx", "edx"]⟩,
    ⟨[0x0f, 0xc7, 0xf0], "rdrand", .fixed "eax" [reg "eax" 4 .write], ["rflags"]⟩,
    ⟨[0x48, 0x90], "nop", .fixed "" [], []⟩,
    ⟨[0x50], "push", .fixed "rax" [reg "rax" 8 .read], ["rsp"]⟩,
    ⟨[0x55], "push", .fixed "rbp" [reg "rbp" 8 .read], ["rsp"]⟩,
    ⟨[0x58], "pop", .fixed "rax" [reg "rax" 8 .write], ["rsp"]⟩,
    ⟨[0x5b], "pop", .fixed "rbx" [reg "rbx" 8 .write], ["rsp"]⟩,
    ⟨[0x5d], "pop", .fixed "rbp" [reg "rbp" 8 .write], ["rsp"]⟩,
    ⟨[0x66, 0x0f, 0x1f, 0x44, 0x00, 0x00], "nop",
      .fixed "word ptr [rax + rax]" [mem (some "rax") (some "rax") 1 0 2 .read], []⟩,
    ⟨[0x66, 0x66, 0x66, 0x66, 0x66, 0x66, 0x66, 0x66, 0x66, 0x66, 0x66, 0x66, 0x66, 0x66, 0x90], "nop",
      .fixed "" [], []⟩,
    ⟨[0x66, 0x90], "nop", .fixed "" [], []⟩,
    ⟨[0x68, 0xff, 0xff, 0xff, 0xff], "push", .fixed "-1" [imm (-1) 8], ["rsp"]⟩,
    ⟨[0x6a, 0x05], "push", .fixed "5" [imm 5 8], ["rsp"]⟩,
    ⟨[0x6a, 0x80], "push", .fixed "-0x80" [imm (-128) 8], ["rsp"]⟩,
    ⟨[0x8f, 0x00], "pop", .fixed "qword ptr [rax]" [mem (some "rax") none 1 0 8 .write], ["rsp"]⟩,
    ⟨[0x90], "nop", .fixed "" [], []⟩,
    ⟨[0x9b], "wait", .fixed "" [], []⟩,
    ⟨[0xa4], "movsb",
      .fixed "byte ptr [rdi], byte ptr [rsi]"
        [mem (some "rdi") none 1 0 1 .write, mem (some "rsi") none 1 0 1 .read], ["rdi", "rsi"]⟩,
    ⟨[0xac], "lodsb",
      .fixed "al, byte ptr [rsi]" [reg "al" 1 .write, mem (some "rsi") none 1 0 1 .read], ["al", "rsi"]⟩,
    ⟨[0xae], "scasb",
      .fixed "al, byte ptr [rdi]"
        [reg "al" 1 .read, mem (some "rdi") none 1 0 1 .read], ["rdi", "rflags"]⟩,
    ⟨[0xc7, 0xf8, 0x00, 0x00, 0x00, 0x00], "xbegin", .fixed "0x1006" [imm 4102 8], ["eax"]⟩,
    ⟨[0xc8, 0x08, 0x00, 0x00], "enter", .fixed "8, 0" [imm 8 8, imm 0 8], []⟩,
    ⟨[0xc8, 0x31, 0xc0, 0xc3], "enter", .fixed "-0x3fcf, -0x3d" [imm (-16335) 8, imm (-61) 8], []⟩,
    ⟨[0xc9], "leave", .fixed "" [], ["rbp", "rsp"]⟩,
    ⟨[0xdb, 0xe3], "fninit", .fixed "" [], ["fpsw"]⟩,
    ⟨[0xdd, 0x00], "fld", .fixed "qword ptr [rax]" [mem (some "rax") none 1 0 8 .read], ["fpsw"]⟩,
    ⟨[0xf3, 0x0f, 0x1e, 0xfa], "endbr64", .fixed "" [], []⟩,
    ⟨[0xf3, 0x48, 0xab], "rep stosq",
      .fixed "qword ptr [rdi], rax"
        [mem (some "rdi") none 1 0 8 .write, reg "rax" 8 .read], ["rcx", "rdi", "rcx"]⟩,
    ⟨[0xf3, 0x90], "pause", .fixed "" [], []⟩,
    ⟨[0xf3, 0xa4], "rep movsb",
      .fixed "byte ptr [rdi], byte ptr [rsi]"
        [mem (some "rdi") none 1 0 1 .write, mem (some "rsi") none 1 0 1 .read], ["rdi", "rsi", "rcx"]⟩,
    ⟨[0xf3, 0xab], "rep stosd",
      .fixed "dword ptr [rdi], eax"
        [mem (some "rdi") none 1 0 4 .write, reg "eax" 4 .read], ["rdi", "rcx"]⟩,
    ⟨[0xfc], "cld", .fixed "" [], ["rflags"]⟩,
    ⟨[0xff, 0x30], "push", .fixed "qword ptr [rax]" [mem (some "rax") none 1 0 8 .read], ["rsp"]⟩
  ]

end ReachableCode.X86.Catalogue
