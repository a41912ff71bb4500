import ReachableCode.X86.Catalogue.Entry

/-!
Encodings that move a value: copies, extensions, computed addresses and exchanges.
-/

namespace ReachableCode.X86.Catalogue

open Entry

/-- The entries of this kind in 32-bit mode. -/
def narrowMoves : List Entry :=
  [
    ⟨[0x0f, 0x20, 0xc0], "mov", .fixed "eax, cr0" [reg "eax" 4 .write, reg "cr0" 4 .read], []⟩,
    ⟨[0x0f, 0x22, 0xc0], "mov", .fixed "cr0, eax" [reg "cr0" 4 .write, reg "eax" 4 .read], []⟩,
    ⟨[0x0f, 0xb6, 0x05, 0x00, 0x20, 0x00, 0x00], "movzx",
      .fixed "eax, byte ptr [0x2000]" [reg "eax" 4 .write, mem none none 1 8192 1 .read], []⟩,
    ⟨[0x0f, 0xb6, 0xc0], "movzx", .fixed "eax, al" [reg "eax" 4 .write, reg "al" 1 .read], []⟩,
    ⟨[0x0f, 0xb6, 0xc4], "movzx", .fixed "eax, ah" [reg "eax" 4 .write, reg "ah" 1 .read], []⟩,
    ⟨[0x0f, 0xb7, 0x1d, 0x00, 0x40, 0x00, 0x00], "movzx",
      .fixed "ebx, word ptr [0x4000]" [reg "ebx" 4 .write, mem none none 1 16384 2 .read], []⟩,
    ⟨[0x0f, 0xb7, 0xc0], "movzx", .fixed "eax, ax" [reg "eax" 4 .write, reg "ax" 2 .read], []⟩,
    ⟨[0x0f, 0xbe, 0x03], "movsx",
      .fixed "eax, byte ptr [ebx]" [reg "eax" 4 .write, mem (some "ebx") none 1 0 1 .read], []⟩,
    ⟨[0x0f, 0xbe, 0x81, 0x00, 0x20, 0x00, 0x00], "movsx",
      .fixed "eax, byte ptr [ecx + 0x2000]"
        [reg "eax" 4 .write, mem (some "ecx") none 1 8192 1 .read], []⟩,
    ⟨[0x0f, 0xbe, 0xc0], "movsx", .fixed "eax, al" [reg "eax" 4 .write, reg "al" 1 .read], []⟩,
    ⟨[0x0f, 0xbe, 0xc3], "movsx", .fixed "eax, bl" [reg "eax" 4 .write, reg "bl" 1 .read], []⟩,
    ⟨[0x0f, 0xbf, 0x00], "movsx",
      .fixed "eax, word ptr [eax]" [reg "eax" 4 .write, mem (some "eax") none 1 0 2 .read], []⟩,
    ⟨[0x0f, 0xbf, 0x14, 0x12], "movsx",
      .fixed "edx, word ptr [edx + edx]"
        [reg "edx" 4 .write, mem (some "edx") (some "edx") 1 0 2 .read], []⟩,
    ⟨[0x64, 0x67, 0xa1, 0x00, 0x10], "mov",
      .fixed "eax, dword ptr fs:[0x1000]" [reg "eax" 4 .write, mem none none 1 4096 4 .read], []⟩,
    ⟨[0x64, 0xa1, 0x30, 0x00, 0x00, 0x00], "mov",
      .fixed "eax, dword ptr fs:[0x30]" [reg "eax" 4 .write, mem none none 1 48 4 .read], []⟩,
    ⟨[0x66, 0x0f, 0xb6, 0xc0], "movzx", .fixed "ax, al" [reg "ax" 2 .write, reg "al" 1 .read], []⟩,
    ⟨[0x66, 0x8d, 0x03], "lea",
      .fixed "ax, [ebx]" [reg "ax" 2 .write, mem (some "ebx") none 1 0 2 .read], []⟩,
    ⟨[0x66, 0xb8, 0x34, 0x12], "mov", .fixed "ax, 0x1234" [reg "ax" 2 .write, imm 4660 2], []⟩,
    ⟨[0x67, 0x8b, 0x00], "mov",
      .fixed "eax, dword ptr [bx + si]"
        [reg "eax" 4 .write, mem (some "bx") (some "si") 1 0 4 .read], []⟩,
    ⟨[0x67, 0x8b, 0x05], "mov",
      .fixed "eax, dword ptr [di]" [reg "eax" 4 .write, mem (some "di") none 1 0 4 .read], []⟩,
    ⟨[0x67, 0x8d, 0x43, 0x04], "lea",
      .fixed "eax, [bp + di + 4]" [reg "eax" 4 .write, mem (some "bp") (some "di") 1 4 4 .read], []⟩,
    ⟨[0x67, 0x8d, 0x47, 0x04], "lea",
      .fixed "eax, [bx + 4]" [reg "eax" 4 .write, mem (some "bx") none 1 4 4 .read], []⟩,
    ⟨[0x87, 0xc0], "xchg", .fixed "eax, eax" [reg "eax" 4 .readWrite, reg "eax" 4 .readWrite], []⟩,
    ⟨[0x87, 0xdb], "xchg", .fixed "ebx, ebx" [reg "ebx" 4 .readWrite, reg "ebx" 4 .readWrite], []⟩,
    ⟨[0x89, 0xc3], "mov", .fixed "ebx, eax" [reg "ebx" 4 .write, reg "eax" 4 .read], []⟩,
    ⟨[0x89, 0xe5], "mov", .fixed "ebp, esp" [reg "ebp" 4 .write, reg "esp" 4 .read], []⟩,
    ⟨[0x8b, 0x04, 0x8b], "mov",
      .fixed "eax, dword ptr [ebx + ecx*4]"
        [reg "eax" 4 .write, mem (some "ebx") (some "ecx") 4 0 4 .read], []⟩,
    ⟨[0x8b, 0x04, 0x8d, 0x00, 0x20, 0x00, 0x00], "mov",
      .fixed "eax, dword ptr [ecx*4 + 0x2000]"
        [reg "eax" 4 .write, mem none (some "ecx") 4 8192 4 .read], []⟩,
    ⟨[0x8b, 0x05, 0x00, 0x00, 0x00, 0x00], "mov",
      .fixed "eax, dword ptr [0]" [reg "eax" 4 .write, mem none none 1 0 4 .read], []⟩,
    ⟨[0x8b, 0x1b], "mov",
      .fixed "ebx, dword ptr [ebx]" [reg "ebx" 4 .write, mem (some "ebx") none 1 0 4 .read], []⟩,
    ⟨[0x8b, 0x1d, 0x00, 0x40, 0x00, 0x00], "mov",
      .fixed "ebx, dword ptr [0x4000]" [reg "ebx" 4 .write, mem none none 1 16384 4 .read], []⟩,
    ⟨[0x8b, 0x43, 0x04], "mov",
      .fixed "eax, dword ptr [ebx + 4]" [reg "eax" 4 .write, mem (some "ebx") none 1 4 4 .read], []⟩,
    ⟨[0x8b, 0x43, 0xfc], "mov",
      .fixed "eax, dword ptr [ebx - 4]" [reg "eax" 4 .write, mem (some "ebx") none 1 (-4) 4 .read], []⟩,
    ⟨[0x8b, 0x44, 0x24, 0x08], "mov",
      .fixed "eax, dword ptr [esp + 8]" [reg "eax" 4 .write, mem (some "esp") none 1 8 4 .read], []⟩,
    ⟨[0x8b, 0x45, 0x08], "mov",
      .fixed "eax, dword ptr [ebp + 8]" [reg "eax" 4 .write, mem (some "ebp") none 1 8 4 .read], []⟩,
    ⟨[0x8c, 0xc8], "mov", .fixed "eax, cs" [reg "eax" 4 .write, reg "cs" 2 .read], []⟩,
    ⟨[0x8c, 0xd8], "mov", .fixed "eax, ds" [reg "eax" 4 .write, reg "ds" 2 .read], []⟩,
    ⟨[0x8d, 0x00], "lea",
      .fixed "eax, [eax]" [reg "eax" 4 .write, mem (some "eax") none 1 0 4 .read], []⟩,
    ⟨[0x8d, 0x04, 0x85, 0x00, 0x00, 0x00, 0x00], "lea",
      .fixed "eax, [eax*4]" [reg "eax" 4 .write, mem none (some "eax") 4 0 4 .read], []⟩,
    ⟨[0x8d, 0x05, 0x00, 0x40, 0x00, 0x00], "lea",
      .fixed "eax, [0x4000]" [reg "eax" 4 .write, mem none none 1 16384 4 .read], []⟩,
    ⟨[0x8d, 0x43, 0x04], "lea",
      .fixed "eax, [ebx + 4]" [reg "eax" 4 .write, mem (some "ebx") none 1 4 4 .read], []⟩,
    ⟨[0x8d, 0x84, 0x00, 0x12, 0x10, 0x00, 0x00], "lea",
      .fixed "eax, [eax + eax + 0x1012]"
        [reg "eax" 4 .write, mem (some "eax") (some "eax") 1 4114 4 .read], []⟩,
    ⟨[0x8e, 0xc0], "mov", .fixed "es, eax" [reg "es" 2 .write, reg "eax" 4 .read], []⟩,
    ⟨[0x8e, 0xd8], "mov", .fixed "ds, eax" [reg "ds" 2 .write, reg "eax" 4 .read], []⟩,
    ⟨[0x91], "xchg", .fixed "ecx, eax" [reg "ecx" 4 .readWrite, reg "eax" 4 .readWrite], []⟩,
    ⟨[0x98], "cwde", .fixed "" [], ["eax"]⟩,
    ⟨[0x99], "cdq", .fixed "" [], ["eax", "edx"]⟩,
    ⟨[0xa1, 0x00, 0x10, 0x00, 0x00], "mov",
      .fixed "eax, dword ptr [0x1000]" [reg "eax" 4 .write, mem none none 1 4096 4 .read], []⟩,
    ⟨[0xa1, 0x00, 0x40, 0x00, 0x00], "mov",
      .fixed "eax, dword ptr [0x4000]" [reg "eax" 4 .write, mem none none 1 16384 4 .read], []⟩,
    ⟨[0xa3, 0x00, 0x40, 0x00, 0x00], "mov",
      .fixed "dword ptr [0x4000], eax" [mem none none 1 16384 4 .write, reg "eax" 4 .read], []⟩,
    ⟨[0xb0, 0x01], "mov", .fixed "al, 1" [reg "al" 1 .write, imm 1 1], []⟩,
    ⟨[0xb7, 0x02], "mov", .fixed "bh, 2" [reg "bh" 1 .write, imm 2 1], []⟩,
    ⟨[0xb8, 0x00, 0x20, 0x00, 0x00], "mov", .fixed "eax, 0x2000" [reg "eax" 4 .write, imm 8192 4], []⟩,
    ⟨[0xb8, 0x01, 0x00, 0x00, 0x00], "mov", .fixed "eax, 1" [reg "eax" 4 .write, imm 1 4], []⟩,
    ⟨[0xb8, 0x02, 0x00, 0x00, 0x00], "mov", .fixed "eax, 2" [reg "eax" 4 .write, imm 2 4], []⟩,
    ⟨[0xb8, 0x05, 0x00, 0x00, 0x00], "mov", .fixed "eax, 5" [reg "eax" 4 .write, imm 5 4], []⟩,
    ⟨[0xb8, 0x0a, 0x00, 0x00, 0x00], "mov", .fixed "eax, 0xa" [reg "eax" 4 .write, imm 10 4], []⟩,
    ⟨[0xb8, 0x10, 0x10, 0x40, 0x00], "mov",
      .fixed "eax, 0x401010" [reg "eax" 4 .write, imm 4198416 4], []⟩,
    ⟨[0xb8, 0xff, 0xff, 0xff, 0x7f], "mov",
      .fixed "eax, 0x7fffffff" [reg "eax" 4 .write, imm 2147483647 4], []⟩,
    ⟨[0xb8, 0xff, 0xff, 0xff, 0xff], "mov",
      .fixed "eax, 0xffffffff" [reg "eax" 4 .write, imm 4294967295 4], []⟩,
    ⟨[0xb9, 0x02, 0x00, 0x00, 0x00], "mov", .fixed "ecx, 2" [reg "ecx" 4 .write, imm 2 4], []⟩,
    ⟨[0xba, 0x20, 0x10, 0x00, 0x00], "mov", .fixed "edx, 0x1020" [reg "edx" 4 .write, imm 4128 4], []⟩,
    ⟨[0xbb, 0x00, 0x20, 0x00, 0x00], "mov", .fixed "ebx, 0x2000" [reg "ebx" 4 .write, imm 8192 4], []⟩,
    ⟨[0xbe, 0x20, 0x10, 0x00, 0x00], "mov", .fixed "esi, 0x1020" [reg "esi" 4 .write, imm 4128 4], []⟩,
    ⟨[0xc7, 0x05, 0x00, 0x00, 0x00, 0x00, 0x00, 0x00, 0x00, 0x00], "mov",
      .fixed "dword ptr [0], 0" [mem none none 1 0 4 .write, imm 0 4], []⟩
  ]

/-- The entries of this kind in 64-bit mode. -/
def wideMoves : List Entry :=
  [
    ⟨[0x0f, 0x20, 0xc0], "mov", .fixed "rax, cr0" [reg "rax" 8 .write, reg "cr0" 8 .read], []⟩,
    ⟨[0x0f, 0x28, 0x00], "movaps",
      .fixed "xmm0, xmmword ptr [rax]" [reg "xmm0" 16 .write, mem (some "rax") none 1 0 16 .read], []⟩,
    ⟨[0x0f, 0x28, 0x05, 0x08, 0x00, 0x00, 0x00], "movaps",
      .fixed "xmm0, xmmword ptr [rip + 8]"
        [reg "xmm0" 16 .write, mem (some "rip") none 1 8 16 .read], []⟩,
    ⟨[0x0f, 0x43, 0x03], "cmovae",
      .fixed "eax, dword ptr [rbx]" [reg "eax" 4 .write, mem (some "rbx") none 1 0 4 .read], []⟩,
    ⟨[0x0f, 0x94, 0xc0], "sete", .fixed "al" [reg "al" 1 .write], []⟩,
    ⟨[0x0f, 0x95, 0x00], "setne", .fixed "byte ptr [rax]" [mem (some "rax") none 1 0 1 .write], []⟩,
    ⟨[0x0f, 0xb6, 0x03], "movzx",
      .fixed "eax, byte ptr [rbx]" [reg "eax" 4 .write, mem (some "rbx") none 1 0 1 .read], []⟩,
    ⟨[0x0f, 0xb6, 0x05, 0xf9, 0x0f, 0x00, 0x00], "movzx",
      .fixed "eax, byte ptr [rip + 0xff9]"
        [reg "eax" 4 .write, mem (some "rip") none 1 4089 1 .read], []⟩,
    ⟨[0x0f, 0xb6, 0x1c, 0x25, 0x08, 0x20, 0x00, 0x00], "movzx",
      .fixed "ebx, byte ptr [0x2008]" [reg "ebx" 4 .write, mem none none 1 8200 1 .read], []⟩,
    ⟨[0x0f, 0xb6, 0xc0], "movzx", .fixed "eax, al" [reg "eax" 4 .write, reg "al" 1 .read], []⟩,
    ⟨[0x0f, 0xb6, 0xc1], "movzx", .fixed "eax, cl" [reg "eax" 4 .write, reg "cl" 1 .read], []⟩,
    ⟨[0x0f, 0xb6, 0xc3], "movzx", .fixed "eax, bl" [reg "eax" 4 .write, reg "bl" 1 .read], []⟩,
    ⟨[0x0f, 0xb6, 0xc7], "movzx", .fixed "eax, bh" [reg "eax" 4 .write, reg "bh" 1 .read], []⟩,
    ⟨[0x0f, 0xb7, 0x44, 0x73, 0x04], "movzx",
      .fixed "eax, word ptr [rbx + rsi*2 + 4]"
        [reg "eax" 4 .write, mem (some "rbx") (some "rsi") 2 4 2 .read], []⟩,
    ⟨[0x0f, 0xb7, 0xc0], "movzx", .fixed "eax, ax" [reg "eax" 4 .write, reg "ax" 2 .read], []⟩,
    ⟨[0x0f, 0xb7, 0xc6], "movzx", .fixed "eax, si" [reg "eax" 4 .write, reg "si" 2 .read], []⟩,
    ⟨[0x0f, 0xbe, 0x03], "movsx",
      .fixed "eax, byte ptr [rbx]" [reg "eax" 4 .write, mem (some "rbx") none 1 0 1 .read], []⟩,
    ⟨[0x0f, 0xbe, 0xc0], "movsx", .fixed "eax, al" [reg "eax" 4 .write, reg "al" 1 .read], []⟩,
    ⟨[0x0f, 0xbf, 0x00], "movsx",
      .fixed "eax, word ptr [rax]" [reg "eax" 4 .write, mem (some "rax") none 1 0 2 .read], []⟩,
    ⟨[0x40, 0x88, 0xc6], "mov", .fixed "sil, al" [reg "sil" 1 .write, reg "al" 1 .read], []⟩,
    ⟨[0x41, 0x88, 0xc0], "mov", .fixed "r8b, al" [reg "r8b" 1 .write, reg "al" 1 .read], []⟩,
    ⟨[0x41, 0x89, 0xc0], "mov", .fixed "r8d, eax" [reg "r8d" 4 .write, reg "eax" 4 .read], []⟩,
    ⟨[0x44, 0x89, 0xc8], "mov", .fixed "eax, r9d" [reg "eax" 4 .write, reg "r9d" 4 .read], []⟩,
    ⟨[0x48, 0x0f, 0x44, 0xc3], "cmove", .fixed "rax, rbx" [reg "rax" 8 .write, reg "rbx" 8 .read], []⟩,
    ⟨[0x48, 0x0f, 0x44, 0xd8], "cmove", .fixed "rbx, rax" [reg "rbx" 8 .write, reg "rax" 8 .read], []⟩,
    ⟨[0x48, 0x0f, 0xb6, 0x07], "movzx",
      .fixed "rax, byte ptr [rdi]" [reg "rax" 8 .write, mem (some "rdi") none 1 0 1 .read], []⟩,
    ⟨[0x48, 0x0f, 0xbe, 0xc3], "movsx", .fixed "rax, bl" [reg "rax" 8 .write, reg "bl" 1 .read], []⟩,
    ⟨[0x48, 0x0f, 0xbf, 0x43, 0x02], "movsx",
      .fixed "rax, word ptr [rbx + 2]" [reg "rax" 8 .write, mem (some "rbx") none 1 2 2 .read], []⟩,
    ⟨[0x48, 0x0f, 0xc8], "bswap", .fixed "rax" [reg "rax" 8 .readWrite], []⟩,
    ⟨[0x48, 0x63, 0x04, 0x25, 0x10, 0x20, 0x00, 0x00], "movsxd",
      .fixed "rax, dword ptr [0x2010]" [reg "rax" 8 .write, mem none none 1 8208 4 .read], []⟩,
    ⟨[0x48, 0x63, 0x04, 0x83], "movsxd",
      .fixed "rax, dword ptr [rbx + rax*4]"
        [reg "rax" 8 .write, mem (some "rbx") (some "rax") 4 0 4 .read], []⟩,
    ⟨[0x48, 0x63, 0x0c, 0x83], "movsxd",
      .fixed "rcx, dword ptr [rbx + rax*4]"
        [reg "rcx" 8 .write, mem (some "rbx") (some "rax") 4 0 4 .read], []⟩,
    ⟨[0x48, 0x63, 0x0d, 0x04, 0x00, 0x00, 0x00], "movsxd",
      .fixed "rcx, dword ptr [rip + 4]" [reg "rcx" 8 .write, mem (some "rip") none 1 4 4 .read], []⟩,
    ⟨[0x48, 0x63, 0xc0], "movsxd", .fixed "rax, eax" [reg "rax" 8 .write, reg "eax" 4 .read], []⟩,
    ⟨[0x48, 0x63, 0xc1], "movsxd", .fixed "rax, ecx" [reg "rax" 8 .write, reg "ecx" 4 .read], []⟩,
    ⟨[0x48, 0x87, 0x03], "xchg",
      .fixed "qword ptr [rbx], rax"
        [mem (some "rbx") none 1 0 8 .readWrite, reg "rax" 8 .readWrite], []⟩,
    ⟨[0x48, 0x87, 0xcb], "xchg",
      .fixed "rbx, rcx" [reg "rbx" 8 .readWrite, reg "rcx" 8 .readWrite], []⟩,
    ⟨[0x48, 0x89, 0x00], "mov",
      .fixed "qword ptr [rax], rax" [mem (some "rax") none 1 0 8 .write, reg "rax" 8 .read], []⟩,
    ⟨[0x48, 0x89, 0x18], "mov",
      .fixed "qword ptr [rax], rbx" [mem (some "rax") none 1 0 8 .write, reg "rbx" 8 .read], []⟩,
    ⟨[0x48, 0x89, 0xc1], "mov", .fixed "rcx, rax" [reg "rcx" 8 .write, reg "rax" 8 .read], []⟩,
    ⟨[0x48, 0x89, 0xc3], "mov", .fixed "rbx, rax" [reg "rbx" 8 .write, reg "rax" 8 .read], []⟩,
    ⟨[0x48, 0x89, 0xcb], "mov", .fixed "rbx, rcx" [reg "rbx" 8 .write, reg "rcx" 8 .read], []⟩,
    ⟨[0x48, 0x89, 0xd8], "mov", .fixed "rax, rbx" [reg "rax" 8 .write, reg "rbx" 8 .read], []⟩,
    ⟨[0x48, 0x89, 0xd9], "mov", .fixed "rcx, rbx" [reg "rcx" 8 .write, reg "rbx" 8 .read], []⟩,
    ⟨[0x48, 0x89, 0xdb], "mov", .fixed "rbx, rbx" [reg "rbx" 8 .write, reg "rbx" 8 .read], []⟩,
    ⟨[0x48, 0x89, 0xe5], "mov", .fixed "rbp, rsp" [reg "rbp" 8 .write, reg "rsp" 8 .read], []⟩,
    ⟨[0x48, 0x89, 0xfe], "mov", .fixed "rsi, rdi" [reg "rsi" 8 .write, reg "rdi" 8 .read], []⟩,
    ⟨[0x48, 0x8b, 0x00], "mov",
      .fixed "rax, qword ptr [rax]" [reg "rax" 8 .write, mem (some "rax") none 1 0 8 .read], []⟩,
    ⟨[0x48, 0x8b, 0x03], "mov",
      .fixed "rax, qword ptr [rbx]" [reg "rax" 8 .write, mem (some "rbx") none 1 0 8 .read], []⟩,
    ⟨[0x48, 0x8b, 0x04, 0x40], "mov",
      .fixed "rax, qword ptr [rax + rax*2]"
        [reg "rax" 8 .write, mem (some "rax") (some "rax") 2 0 8 .read], []⟩,
    ⟨[0x48, 0x8b, 0x04, 0xc5, 0x00, 0x20, 0x00, 0x00], "mov",
      .fixed "rax, qword ptr [rax*8 + 0x2000]"
        [reg "rax" 8 .write, mem none (some "rax") 8 8192 8 .read], []⟩,
    ⟨[0x48, 0x8b, 0x04, 0xcd, 0x00, 0x40, 0x00, 0x00], "mov",
      .fixed "rax, qword ptr [rcx*8 + 0x4000]"
        [reg "rax" 8 .write, mem none (some "rcx") 8 16384 8 .read], []⟩,
    ⟨[0x48, 0x8b, 0x05, 0x00, 0x00, 0x00, 0x00], "mov",
      .fixed "rax, qword ptr [rip]" [reg "rax" 8 .write, mem (some "rip") none 1 0 8 .read], []⟩,
    ⟨[0x48, 0x8b, 0x05, 0x00, 0x01, 0x00, 0x00], "mov",
      .fixed "rax, qword ptr [rip + 0x100]"
        [reg "rax" 8 .write, mem (some "rip") none 1 256 8 .read], []⟩,
    ⟨[0x48, 0x8b, 0x05, 0x10, 0x00, 0x00, 0x00], "mov",
      .fixed "rax, qword ptr [rip + 0x10]" [reg "rax" 8 .write, mem (some "rip") none 1 16 8 .read], []⟩,
    ⟨[0x48, 0x8b, 0x0c, 0x25, 0x00, 0x20, 0x00, 0x00], "mov",
      .fixed "rcx, qword ptr [0x2000]" [reg "rcx" 8 .write, mem none none 1 8192 8 .read], []⟩,
    ⟨[0x48, 0x8b, 0x0c, 0x25, 0x10, 0x20, 0x00, 0x00], "mov",
      .fixed "rcx, qword ptr [0x2010]" [reg "rcx" 8 .write, mem none none 1 8208 8 .read], []⟩,
    ⟨[0x48, 0x8b, 0x0c, 0x25, 0x18, 0x20, 0x00, 0x00], "mov",
      .fixed "rcx, qword ptr [0x2018]" [reg "rcx" 8 .write, mem none none 1 8216 8 .read], []⟩,
    ⟨[0x48, 0x8b, 0x1b], "mov",
      .fixed "rbx, qword ptr [rbx]" [reg "rbx" 8 .write, mem (some "rbx") none 1 0 8 .read], []⟩,
    ⟨[0x48, 0x8b, 0x1c, 0xcd, 0x00, 0x20, 0x00, 0x00], "mov",
      .fixed "rbx, qword ptr [rcx*8 + 0x2000]"
        [reg "rbx" 8 .write, mem none (some "rcx") 8 8192 8 .read], []⟩,
    ⟨[0x48, 0x8b, 0x43, 0x08], "mov",
      .fixed "rax, qword ptr [rbx + 8]" [reg "rax" 8 .write, mem (some "rbx") none 1 8 8 .read], []⟩,
    ⟨[0x48, 0x8b, 0x43, 0xf8], "mov",
      .fixed "rax, qword ptr [rbx - 8]" [reg "rax" 8 .write, mem (some "rbx") none 1 (-8) 8 .read], []⟩,
    ⟨[0x48, 0x8b, 0x44, 0xcb, 0x10], "mov",
      .fixed "rax, qword ptr [rbx + rcx*8 + 0x10]"
        [reg "rax" 8 .write, mem (some "rbx") (some "rcx") 8 16 8 .read], []⟩,
    ⟨[0x48, 0x8d, 0x04, 0x1b], "lea",
      .fixed "rax, [rbx + rbx]" [reg "rax" 8 .write, mem (some "rbx") (some "rbx") 1 0 8 .read], []⟩,
    ⟨[0x48, 0x8d, 0x04, 0x25, 0x00, 0x40, 0x00, 0x00], "lea",
      .fixed "rax, [0x4000]" [reg "rax" 8 .write, mem none none 1 16384 8 .read], []⟩,
    ⟨[0x48, 0x8d, 0x05, 0x03, 0x00, 0x00, 0x00], "lea",
      .fixed "rax, [rip + 3]" [reg "rax" 8 .write, mem (some "rip") none 1 3 8 .read], []⟩,
    ⟨[0x48, 0x8d, 0x05, 0x20, 0x00, 0x00, 0x00], "lea",
      .fixed "rax, [rip + 0x20]" [reg "rax" 8 .write, mem (some "rip") none 1 32 8 .read], []⟩,
    ⟨[0x48, 0x8d, 0x05, 0xf0, 0xff, 0xff, 0xff], "lea",
      .fixed "rax, [rip - 0x10]" [reg "rax" 8 .write, mem (some "rip") none 1 (-16) 8 .read], []⟩,
    ⟨[0x48, 0x8d, 0x05, 0xf9, 0xff, 0xff, 0xff], "lea",
      .fixed "rax, [rip - 7]" [reg "rax" 8 .write, mem (some "rip") none 1 (-7) 8 .read], []⟩,
    ⟨[0x48, 0x8d, 0x0d, 0x00, 0x01, 0x00, 0x00], "lea",
      .fixed "rcx, [rip + 0x100]" [reg "rcx" 8 .write, mem (some "rip") none 1 256 8 .read], []⟩,
    ⟨[0x48, 0x8d, 0x0d, 0x05, 0x00, 0x00, 0x00], "lea",
      .fixed "rcx, [rip + 5]" [reg "rcx" 8 .write, mem (some "rip") none 1 5 8 .read], []⟩,
    ⟨[0x48, 0x8d, 0x1c, 0x48], "lea",
      .fixed "rbx, [rax + rcx*2]" [reg "rbx" 8 .write, mem (some "rax") (some "rcx") 2 0 8 .read], []⟩,
    ⟨[0x48, 0x8d, 0x1d, 0x0a, 0x00, 0x00, 0x00], "lea",
      .fixed "rbx, [rip + 0xa]" [reg "rbx" 8 .write, mem (some "rip") none 1 10 8 .read], []⟩,
    ⟨[0x48, 0x8d, 0x1d, 0x10, 0x00, 0x00, 0x00], "lea",
      .fixed "rbx, [rip + 0x10]" [reg "rbx" 8 .write, mem (some "rip") none 1 16 8 .read], []⟩,
    ⟨[0x48, 0x8d, 0x3d, 0xf1, 0x0f, 0x00, 0x00], "lea",
      .fixed "rdi, [rip + 0xff1]" [reg "rdi" 8 .write, mem (some "rip") none 1 4081 8 .read], []⟩,
    ⟨[0x48, 0x8d, 0x40, 0x01], "lea",
      .fixed "rax, [rax + 1]" [reg "rax" 8 .write, mem (some "rax") none 1 1 8 .read], []⟩,
    ⟨[0x48, 0x8d, 0x43, 0x02], "lea",
      .fixed "rax, [rbx + 2]" [reg "rax" 8 .write, mem (some "rbx") none 1 2 8 .read], []⟩,
    ⟨[0x48, 0x8d, 0x43, 0x04], "lea",
      .fixed "rax, [rbx + 4]" [reg "rax" 8 .write, mem (some "rbx") none 1 4 8 .read], []⟩,
    ⟨[0x48, 0x8d, 0x44, 0x8b, 0x10], "lea",
      .fixed "rax, [rbx + rcx*4 + 0x10]"
        [reg "rax" 8 .write, mem (some "rbx") (some "rcx") 4 16 8 .read], []⟩,
    ⟨[0x48, 0x91], "xchg", .fixed "rcx, rax" [reg "rcx" 8 .readWrite, reg "rax" 8 .readWrite], []⟩,
    ⟨[0x48, 0x93], "xchg", .fixed "rbx, rax" [reg "rbx" 8 .readWrite, reg "rax" 8 .readWrite], []⟩,
    ⟨[0x48, 0x98], "cdqe", .fixed "" [], ["rax"]⟩,
    ⟨[0x48, 0x99], "cqo", .fixed "" [], ["rax", "rdx"]⟩,
    ⟨[0x48, 0xa1, 0x11, 0x22, 0x33, 0x44, 0x55, 0x66, 0x77, 0x88], "movabs",
      .fixed "rax, qword ptr [0x8877665544332211]"
        [reg "rax" 8 .write, mem none none 1 (-8613303245920329199) 8 .read], []⟩,
    ⟨[0x48, 0xa1, 0x88, 0x77, 0x66, 0x55, 0x44, 0x33, 0x22, 0x11], "movabs",
      .fixed "rax, qword ptr [0x1122334455667788]"
        [reg "rax" 8 .write, mem none none 1 1234605616436508552 8 .read], []⟩,
    ⟨[0x48, 0xb8, 0x10, 0x10, 0x00, 0x00, 0x00, 0x00, 0x00, 0x00], "movabs",
      .fixed "rax, 0x1010" [reg "rax" 8 .write, imm 4112 8], []⟩,
    ⟨[0x48, 0xb8, 0x88, 0x77, 0x66, 0x55, 0x44, 0x33, 0x22, 0x11], "movabs",
      .fixed "rax, 0x1122334455667788" [reg "rax" 8 .write, imm 1234605616436508552 8], []⟩,
    ⟨[0x48, 0xb8, 0xc3, 0x90, 0x90, 0x90, 0x90, 0x90, 0x90, 0x90], "movabs",
      .fixed "rax, 0x90909090909090c3" [reg "rax" 8 .write, imm (-8029759185026510653) 8], []⟩,
    ⟨[0x48, 0xc7, 0xc0, 0x00, 0x10, 0x00, 0x00], "mov",
      .fixed "rax, 0x1000" [reg "rax" 8 .write, imm 4096 8], []⟩,
    ⟨[0x48, 0xc7, 0xc0, 0x00, 0x20, 0x00, 0x00], "mov",
      .fixed "rax, 0x2000" [reg "rax" 8 .write, imm 8192 8], []⟩,
    ⟨[0x48, 0xc7, 0xc0, 0x00, 0xf0, 0xff, 0xff], "mov",
      .fixed "rax, 0xfffffffffffff000" [reg "rax" 8 .write, imm (-4096) 8], []⟩,
    ⟨[0x48, 0xc7, 0xc0, 0x01, 0x10, 0x00, 0x00], "mov",
      .fixed "rax, 0x1001" [reg "rax" 8 .write, imm 4097 8], []⟩,
    ⟨[0x48, 0xc7, 0xc0, 0x09, 0x10, 0x00, 0x00], "mov",
      .fixed "rax, 0x1009" [reg "rax" 8 .write, imm 4105 8], []⟩,
    ⟨[0x48, 0xc7, 0xc0, 0x10, 0x10, 0x00, 0x00], "mov",
      .fixed "rax, 0x1010" [reg "rax" 8 .write, imm 4112 8], []⟩,
    ⟨[0x48, 0xc7, 0xc0, 0x12, 0x10, 0x00, 0x00], "mov",
      .fixed "rax, 0x1012" [reg "rax" 8 .write, imm 4114 8], []⟩,
    ⟨[0x48, 0xc7, 0xc0, 0x16, 0x10, 0x00, 0x00], "mov",
      .fixed "rax, 0x1016" [reg "rax" 8 .write, imm 4118 8], []⟩,
    ⟨[0x48, 0xc7, 0xc0, 0x1f, 0x10, 0x00, 0x00], "mov",
      .fixed "rax, 0x101f" [reg "rax" 8 .write, imm 4127 8], []⟩,
    ⟨[0x48, 0xc7, 0xc0, 0x20, 0x10, 0x00, 0x00], "mov",
      .fixed "rax, 0x1020" [reg "rax" 8 .write, imm 4128 8], []⟩,
    ⟨[0x48, 0xc7, 0xc0, 0x22, 0x10, 0x00, 0x00], "mov",
      .fixed "rax, 0x1022" [reg "rax" 8 .write, imm 4130 8], []⟩,
    ⟨[0x48, 0xc7, 0xc0, 0x26, 0x10, 0x00, 0x00], "mov",
      .fixed "rax, 0x1026" [reg "rax" 8 .write, imm 4134 8], []⟩,
    ⟨[0x48, 0xc7, 0xc0, 0x2c, 0x10, 0x00, 0x00], "mov",
      .fixed "rax, 0x102c" [reg "rax" 8 .write, imm 4140 8], []⟩,
    ⟨[0x48, 0xc7, 0xc0, 0x32, 0x10, 0x00, 0x00], "mov",
      .fixed "rax, 0x1032" [reg "rax" 8 .write, imm 4146 8], []⟩,
    ⟨[0x48, 0xc7, 0xc0, 0x38, 0x10, 0x00, 0x00], "mov",
      .fixed "rax, 0x1038" [reg "rax" 8 .write, imm 4152 8], []⟩,
    ⟨[0x48, 0xc7, 0xc0, 0x3c, 0x10, 0x00, 0x00], "mov",
      .fixed "rax, 0x103c" [reg "rax" 8 .write, imm 4156 8], []⟩,
    ⟨[0x48, 0xc7, 0xc0, 0xff, 0xff, 0xff, 0x7f], "mov",
      .fixed "rax, 0x7fffffff" [reg "rax" 8 .write, imm 2147483647 8], []⟩,
    ⟨[0x48, 0xc7, 0xc0, 0xff, 0xff, 0xff, 0xff], "mov",
      .fixed "rax, 0xffffffffffffffff" [reg "rax" 8 .write, imm (-1) 8], []⟩,
    ⟨[0x48, 0xc7, 0xc2, 0x10, 0x10, 0x00, 0x00], "mov",
      .fixed "rdx, 0x1010" [reg "rdx" 8 .write, imm 4112 8], []⟩,
    ⟨[0x48, 0xc7, 0xc3, 0x00, 0x10, 0x00, 0x00], "mov",
      .fixed "rbx, 0x1000" [reg "rbx" 8 .write, imm 4096 8], []⟩,
    ⟨[0x48, 0xc7, 0xc3, 0x00, 0x20, 0x00, 0x00], "mov",
      .fixed "rbx, 0x2000" [reg "rbx" 8 .write, imm 8192 8], []⟩,
    ⟨[0x48, 0xc7, 0xc3, 0x20, 0x10, 0x00, 0x00], "mov",
      .fixed "rbx, 0x1020" [reg "rbx" 8 .write, imm 4128 8], []⟩,
    ⟨[0x48, 0xc7, 0xc4, 0x10, 0x10, 0x00, 0x00], "mov",
      .fixed "rsp, 0x1010" [reg "rsp" 8 .write, imm 4112 8], []⟩,
    ⟨[0x48, 0xc7, 0xc6, 0x10, 0x10, 0x00, 0x00], "mov",
      .fixed "rsi, 0x1010" [reg "rsi" 8 .write, imm 4112 8], []⟩,
    ⟨[0x49, 0x0f, 0xb6, 0xc1], "movzx", .fixed "rax, r9b" [reg "rax" 8 .write, reg "r9b" 1 .read], []⟩,
    ⟨[0x49, 0xba, 0x10, 0x00, 0x00, 0x00, 0x00, 0x00, 0x00, 0x00], "movabs",
      .fixed "r10, 0x10" [reg "r10" 8 .write, imm 16 8], []⟩,
    ⟨[0x49, 0xc7, 0xc3, 0x20, 0x10, 0x00, 0x00], "mov",
      .fixed "r11, 0x1020" [reg "r11" 8 .write, imm 4128 8], []⟩,
    ⟨[0x49, 0xc7, 0xc4, 0x20, 0x10, 0x00, 0x00], "mov",
      .fixed "r12, 0x1020" [reg "r12" 8 .write, imm 4128 8], []⟩,
    ⟨[0x4d, 0x89, 0xf8], "mov", .fixed "r8, r15" [reg "r8" 8 .write, reg "r15" 8 .read], []⟩,
    ⟨[0x4f, 0x8d, 0x3c, 0xff], "lea",
      .fixed "r15, [r15 + r15*8]" [reg "r15" 8 .write, mem (some "r15") (some "r15") 8 0 8 .read], []⟩,
    ⟨[0x64, 0x48, 0x8b, 0x04, 0x25, 0x28, 0x00, 0x00, 0x00], "mov",
      .fixed "rax, qword ptr fs:[0x28]" [reg "rax" 8 .write, mem none none 1 40 8 .read], []⟩,
    ⟨[0x64, 0x67, 0xa1, 0x00, 0x10, 0x40, 0x00], "mov",
      .fixed "eax, dword ptr fs:[0x401000]" [reg "eax" 4 .write, mem none none 1 4198400 4 .read], []⟩,
    ⟨[0x65, 0x48, 0x8b, 0x04, 0x25, 0x28, 0x00, 0x00, 0x00], "mov",
      .fixed "rax, qword ptr gs:[0x28]" [reg "rax" 8 .write, mem none none 1 40 8 .read], []⟩,
    ⟨[0x65, 0x48, 0x8b, 0x43, 0x08], "mov",
      .fixed "rax, qword ptr gs:[rbx + 8]" [reg "rax" 8 .write, mem (some "rbx") none 1 8 8 .read], []⟩,
    ⟨[0x66, 0x0f, 0x6e, 0xc0], "movd",
      .fixed "xmm0, eax" [reg "xmm0" 16 .write, reg "eax" 4 .read], []⟩,
    ⟨[0x66, 0x0f, 0xb6, 0xc0], "movzx", .fixed "ax, al" [reg "ax" 2 .write, reg "al" 1 .read], []⟩,
    ⟨[0x66, 0x0f, 0xb6, 0xc3], "movzx", .fixed "ax, bl" [reg "ax" 2 .write, reg "bl" 1 .read], []⟩,
    ⟨[0x66, 0x0f, 0xbe, 0x03], "movsx",
      .fixed "ax, byte ptr [rbx]" [reg "ax" 2 .write, mem (some "rbx") none 1 0 1 .read], []⟩,
    ⟨[0x66, 0x41, 0x89, 0xc0], "mov", .fixed "r8w, ax" [reg "r8w" 2 .write, reg "ax" 2 .read], []⟩,
    ⟨[0x66, 0x48, 0x0f, 0x7e, 0xc8], "movq",
      .fixed "rax, xmm1" [reg "rax" 8 .write, reg "xmm1" 16 .read], []⟩,
    ⟨[0x66, 0x8d, 0x03], "lea",
      .fixed "ax, [rbx]" [reg "ax" 2 .write, mem (some "rbx") none 1 0 2 .read], []⟩,
    ⟨[0x66, 0xb8, 0x34, 0x12], "mov", .fixed "ax, 0x1234" [reg "ax" 2 .write, imm 4660 2], []⟩,
    ⟨[0x67, 0x41, 0x8b, 0x01], "mov",
      .fixed "eax, dword ptr [r9d]" [reg "eax" 4 .write, mem (some "r9d") none 1 0 4 .read], []⟩,
    ⟨[0x67, 0x48, 0x8d, 0x43, 0x04], "lea",
      .fixed "rax, [ebx + 4]" [reg "rax" 8 .write, mem (some "ebx") none 1 4 8 .read], []⟩,
    ⟨[0x67, 0x8b, 0x04, 0x8b], "mov",
      .fixed "eax, dword ptr [ebx + ecx*4]"
        [reg "eax" 4 .write, mem (some "ebx") (some "ecx") 4 0 4 .read], []⟩,
    ⟨[0x67, 0x8b, 0x05, 0x00, 0x00, 0x00, 0x00], "mov",
      .fixed "eax, dword ptr [eip]" [reg "eax" 4 .write, mem (some "eip") none 1 0 4 .read], []⟩,
    ⟨[0x67, 0x8d, 0x43, 0x04], "lea",
      .fixed "eax, [ebx + 4]" [reg "eax" 4 .write, mem (some "ebx") none 1 4 4 .read], []⟩,
    ⟨[0x67, 0x8d, 0x44, 0x4b, 0xff], "lea",
      .fixed "eax, [ebx + ecx*2 - 1]"
        [reg "eax" 4 .write, mem (some "ebx") (some "ecx") 2 (-1) 4 .read], []⟩,
    ⟨[0x87, 0xc0], "xchg", .fixed "eax, eax" [reg "eax" 4 .readWrite, reg "eax" 4 .readWrite], []⟩,
    ⟨[0x87, 0xdb], "xchg", .fixed "ebx, ebx" [reg "ebx" 4 .readWrite, reg "ebx" 4 .readWrite], []⟩,
    ⟨[0x89, 0xc1], "mov", .fixed "ecx, eax" [reg "ecx" 4 .write, reg "eax" 4 .read], []⟩,
    ⟨[0x89, 0xc3], "mov", .fixed "ebx, eax" [reg "ebx" 4 .write, reg "eax" 4 .read], []⟩,
    ⟨[0x89, 0xc8], "mov", .fixed "eax, ecx" [reg "eax" 4 .write, reg "ecx" 4 .read], []⟩,
    ⟨[0x89, 0xe5], "mov", .fixed "ebp, esp" [reg "ebp" 4 .write, reg "esp" 4 .read], []⟩,
    ⟨[0x8b, 0x03], "mov",
      .fixed "eax, dword ptr [rbx]" [reg "eax" 4 .write, mem (some "rbx") none 1 0 4 .read], []⟩,
    ⟨[0x8b, 0x05, 0x00, 0x00, 0x00, 0x00], "mov",
      .fixed "eax, dword ptr [rip]" [reg "eax" 4 .write, mem (some "rip") none 1 0 4 .read], []⟩,
    ⟨[0x8b, 0x05, 0xf0, 0xff, 0xff, 0xff], "mov",
      .fixed "eax, dword ptr [rip - 0x10]"
        [reg "eax" 4 .write, mem (some "rip") none 1 (-16) 4 .read], []⟩,
    ⟨[0x8b, 0x1c, 0xcd, 0x00, 0x20, 0x00, 0x00], "mov",
      .fixed "ebx, dword ptr [rcx*8 + 0x2000]"
        [reg "ebx" 4 .write, mem none (some "rcx") 8 8192 4 .read], []⟩,
    ⟨[0x8b, 0x43, 0x04], "mov",
      .fixed "eax, dword ptr [rbx + 4]" [reg "eax" 4 .write, mem (some "rbx") none 1 4 4 .read], []⟩,
    ⟨[0x8c, 0xc8], "mov", .fixed "eax, cs" [reg "eax" 4 .write, reg "cs" 2 .read], []⟩,
    ⟨[0x8c, 0xd8], "mov", .fixed "eax, ds" [reg "eax" 4 .write, reg "ds" 2 .read], []⟩,
    ⟨[0x8d, 0x00], "lea",
      .fixed "eax, [rax]" [reg "eax" 4 .write, mem (some "rax") none 1 0 4 .read], []⟩,
    ⟨[0x8d, 0x43, 0x01], "lea",
      .fixed "eax, [rbx + 1]" [reg "eax" 4 .write, mem (some "rbx") none 1 1 4 .read], []⟩,
    ⟨[0x8e, 0xc0], "mov", .fixed "es, eax" [reg "es" 2 .write, reg "eax" 4 .read], []⟩,
    ⟨[0x99], "cdq", .fixed "" [], ["eax", "edx"]⟩,
    ⟨[0xb0, 0x01], "mov", .fixed "al, 1" [reg "al" 1 .write, imm 1 1], []⟩,
    ⟨[0xb0, 0x05], "mov", .fixed "al, 5" [reg "al" 1 .write, imm 5 1], []⟩,
    ⟨[0xb0, 0x30], "mov", .fixed "al, 0x30" [reg "al" 1 .write, imm 48 1], []⟩,
    ⟨[0xb4, 0x01], "mov", .fixed "ah, 1" [reg "ah" 1 .write, imm 1 1], []⟩,
    ⟨[0xb8, 0x00, 0x10, 0x00, 0x00], "mov", .fixed "eax, 0x1000" [reg "eax" 4 .write, imm 4096 4], []⟩,
    ⟨[0xb8, 0x00, 0x30, 0x00, 0x00], "mov", .fixed "eax, 0x3000" [reg "eax" 4 .write, imm 12288 4], []⟩,
    ⟨[0xb8, 0x01, 0x00, 0x00, 0x00], "mov", .fixed "eax, 1" [reg "eax" 4 .write, imm 1 4], []⟩,
    ⟨[0xb8, 0x02, 0x00, 0x00, 0x00], "mov", .fixed "eax, 2" [reg "eax" 4 .write, imm 2 4], []⟩,
    ⟨[0xb8, 0x10, 0x10, 0x00, 0x00], "mov", .fixed "eax, 0x1010" [reg "eax" 4 .write, imm 4112 4], []⟩,
    ⟨[0xb8, 0x20, 0x10, 0x00, 0x00], "mov", .fixed "eax, 0x1020" [reg "eax" 4 .write, imm 4128 4], []⟩,
    ⟨[0xb8, 0x20, 0x10, 0x01, 0x00], "mov",
      .fixed "eax, 0x11020" [reg "eax" 4 .write, imm 69664 4], []⟩,
    ⟨[0xb8, 0x30, 0x10, 0x00, 0x00], "mov", .fixed "eax, 0x1030" [reg "eax" 4 .write, imm 4144 4], []⟩,
    ⟨[0xb8, 0x40, 0x10, 0x00, 0x00], "mov", .fixed "eax, 0x1040" [reg "eax" 4 .write, imm 4160 4], []⟩,
    ⟨[0xb8, 0xc3, 0xc3, 0xc3, 0xc3], "mov",
      .fixed "eax, 0xc3c3c3c3" [reg "eax" 4 .write, imm 3284386755 4], []⟩,
    ⟨[0xb8, 0xff, 0xff, 0xff, 0xff], "mov",
      .fixed "eax, 0xffffffff" [reg "eax" 4 .write, imm 4294967295 4], []⟩,
    ⟨[0xb9, 0x0a, 0x00, 0x00, 0x00], "mov", .fixed "ecx, 0xa" [reg "ecx" 4 .write, imm 10 4], []⟩,
    ⟨[0xbb, 0x06, 0x10, 0x00, 0x00], "mov", .fixed "ebx, 0x1006" [reg "ebx" 4 .write, imm 4102 4], []⟩,
    ⟨[0xbb, 0x0b, 0x10, 0x00, 0x00], "mov", .fixed "ebx, 0x100b" [reg "ebx" 4 .write, imm 4107 4], []⟩,
    ⟨[0xbb, 0x0d, 0x10, 0x00, 0x00], "mov", .fixed "ebx, 0x100d" [reg "ebx" 4 .write, imm 4109 4], []⟩,
    ⟨[0xbb, 0x0f, 0x10, 0x00, 0x00], "mov", .fixed "ebx, 0x100f" [reg "ebx" 4 .write, imm 4111 4], []⟩,
    ⟨[0xbb, 0x10, 0x10, 0x00, 0x00], "mov", .fixed "ebx, 0x1010" [reg "ebx" 4 .write, imm 4112 4], []⟩,
    ⟨[0xbb, 0x10, 0x20, 0x10, 0x00], "mov",
      .fixed "ebx, 0x102010" [reg "ebx" 4 .write, imm 1056784 4], []⟩,
    ⟨[0xbb, 0x12, 0x10, 0x00, 0x00], "mov", .fixed "ebx, 0x1012" [reg "ebx" 4 .write, imm 4114 4], []⟩,
    ⟨[0xbb, 0x1d, 0x10, 0x00, 0x00], "mov", .fixed "ebx, 0x101d" [reg "ebx" 4 .write, imm 4125 4], []⟩,
    ⟨[0xbb, 0x20, 0x10, 0x00, 0x00], "mov", .fixed "ebx, 0x1020" [reg "ebx" 4 .write, imm 4128 4], []⟩,
    ⟨[0xbb, 0x2f, 0x10, 0x00, 0x00], "mov", .fixed "ebx, 0x102f" [reg "ebx" 4 .write, imm 4143 4], []⟩,
    ⟨[0xbb, 0x3f, 0x10, 0x00, 0x00], "mov", .fixed "ebx, 0x103f" [reg "ebx" 4 .write, imm 4159 4], []⟩,
    ⟨[0xc6, 0x05, 0x08, 0x00, 0x00, 0x00, 0x01], "mov",
      .fixed "byte ptr [rip + 8], 1" [mem (some "rip") none 1 8 1 .write, imm 1 1], []⟩,
    ⟨[0xc7, 0x05, 0x00, 0x00, 0x00, 0x00, 0x00, 0x00, 0x00, 0x00], "mov",
      .fixed "dword ptr [rip], 0" [mem (some "rip") none 1 0 4 .write, imm 0 4], []⟩,
    ⟨[0xc7, 0x40, 0x04, 0x05, 0x00, 0x00, 0x00], "mov",
      .fixed "dword ptr [rax + 4], 5" [mem (some "rax") none 1 4 4 .write, imm 5 4], []⟩,
    ⟨[0xf2, 0x48, 0x0f, 0x2a, 0xc0], "cvtsi2sd",
      .fixed "xmm0, rax" [reg "xmm0" 16 .write, reg "rax" 8 .read], []⟩,
    ⟨[0xf2, 0x48, 0x0f, 0x2a, 0xc8], "cvtsi2sd",
      .fixed "xmm1, rax" [reg "xmm1" 16 .write, reg "rax" 8 .read], []⟩,
    ⟨[0xf3, 0x0f, 0x7f, 0x0b], "movdqu",
      .fixed "xmmword ptr [rbx], xmm1" [mem (some "rbx") none 1 0 16 .write, reg "xmm1" 16 .read], []⟩
  ]

end ReachableCode.X86.Catalogue
