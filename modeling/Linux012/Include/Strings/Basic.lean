import Linux012.Lib.CStrings

/-! # The string functions

`include/string.h`, in which each function is a few string instructions. The value of a character is in the
low byte of the register that it is passed in. The strings that a function is given as `%4` are constants to
the code.
-/

namespace Linux012.Strings

open X86

def strcpy (dest src : Addr) : Asm where
  code := [
    .op .cld,
    .lab 1, .op (.str .lodsb),
    .op (.str .stosb),
    .op .testAl,
    .jcc .ne 1 .b]
  inputs := [(.esi, src), (.edi, dest)]
  value _ := dest

def strncpy (dest src : Addr) (count : BitVec 32) : Asm where
  code := [
    .op .cld,
    .lab 1, .op (.dec .ecx),
    .jcc .s 2 .f,
    .op (.str .lodsb),
    .op (.str .stosb),
    .op .testAl,
    .jcc .ne 1 .b,
    .op (.rep .stosb),
    .lab 2]
  inputs := [(.esi, src), (.edi, dest), (.ecx, count)]
  value _ := dest

def strcat (dest src : Addr) : Asm where
  code := [
    .op .cld,
    .op (.repne .scasb),
    .op (.dec .edi),
    .lab 1, .op (.str .lodsb),
    .op (.str .stosb),
    .op .testAl,
    .jcc .ne 1 .b]
  inputs := [(.esi, src), (.edi, dest), (.eax, 0), (.ecx, 0xffffffff)]
  value _ := dest

def strncat (dest src : Addr) (count : BitVec 32) : Asm where
  code := [
    .op .cld,
    .op (.repne .scasb),
    .op (.dec .edi),
    .op (.movi count .ecx),
    .lab 1, .op (.dec .ecx),
    .jcc .s 2 .f,
    .op (.str .lodsb),
    .op (.str .stosb),
    .op .testAl,
    .jcc .ne 1 .b,
    .lab 2, .op (.xor .eax .eax),
    .op (.str .stosb)]
  inputs := [(.esi, src), (.edi, dest), (.eax, 0), (.ecx, 0xffffffff)]
  value _ := dest

def strcmp (cs ct : Addr) : Asm where
  code := [
    .op .cld,
    .lab 1, .op (.str .lodsb),
    .op (.str .scasb),
    .jcc .ne 2 .f,
    .op .testAl,
    .jcc .ne 1 .b,
    .op (.xor .eax .eax),
    .jmp 3 .f,
    .lab 2, .op (.movi 1 .eax),
    .jcc .l 3 .f,
    .op (.neg .eax),
    .lab 3]
  inputs := [(.edi, cs), (.esi, ct)]
  value t := t.reg .eax

def strncmp (cs ct : Addr) (count : BitVec 32) : Asm where
  code := [
    .op .cld,
    .lab 1, .op (.dec .ecx),
    .jcc .s 2 .f,
    .op (.str .lodsb),
    .op (.str .scasb),
    .jcc .ne 3 .f,
    .op .testAl,
    .jcc .ne 1 .b,
    .lab 2, .op (.xor .eax .eax),
    .jmp 4 .f,
    .lab 3, .op (.movi 1 .eax),
    .jcc .l 4 .f,
    .op (.neg .eax),
    .lab 4]
  inputs := [(.edi, cs), (.esi, ct), (.ecx, count)]
  value t := t.reg .eax

def strchr (s : Addr) (c : BitVec 32) : Asm where
  code := [
    .op .cld,
    .op .movAh,
    .lab 1, .op (.str .lodsb),
    .op .cmpAh,
    .jcc .e 2 .f,
    .op .testAl,
    .jcc .ne 1 .b,
    .op (.movi 1 .esi),
    .lab 2, .op (.mov .esi .eax),
    .op (.dec .eax)]
  inputs := [(.esi, s), (.eax, c)]
  value t := t.reg .eax

def strrchr (s : Addr) (c : BitVec 32) : Asm where
  code := [
    .op .cld,
    .op .movAh,
    .lab 1, .op (.str .lodsb),
    .op .cmpAh,
    .jcc .ne 2 .f,
    .op (.mov .esi .edx),
    .op (.dec .edx),
    .lab 2, .op .testAl,
    .jcc .ne 1 .b]
  inputs := [(.edx, 0), (.esi, s), (.eax, c)]
  value t := t.reg .edx

/-- The beginning of the functions that look for the characters of `ct`: its length goes to `edx`. -/
def lengthOf (ct : Addr) : List Line := [
  .op .cld,
  .op (.movi ct .edi),
  .op (.repne .scasb),
  .op (.not .ecx),
  .op (.dec .ecx),
  .op (.mov .ecx .edx)]

def strspn (cs ct : Addr) : Asm where
  code := lengthOf ct ++ [
    .lab 1, .op (.str .lodsb),
    .op .testAl,
    .jcc .e 2 .f,
    .op (.movi ct .edi),
    .op (.mov .edx .ecx),
    .op (.repne .scasb),
    .jcc .e 1 .b,
    .lab 2, .op (.dec .esi)]
  inputs := [(.eax, 0), (.ecx, 0xffffffff), (.esi, cs)]
  value t := t.reg .esi - cs

def strcspn (cs ct : Addr) : Asm where
  code := lengthOf ct ++ [
    .lab 1, .op (.str .lodsb),
    .op .testAl,
    .jcc .e 2 .f,
    .op (.movi ct .edi),
    .op (.mov .edx .ecx),
    .op (.repne .scasb),
    .jcc .ne 1 .b,
    .lab 2, .op (.dec .esi)]
  inputs := [(.eax, 0), (.ecx, 0xffffffff), (.esi, cs)]
  value t := t.reg .esi - cs

def strpbrk (cs ct : Addr) : Asm where
  code := lengthOf ct ++ [
    .lab 1, .op (.str .lodsb),
    .op .testAl,
    .jcc .e 2 .f,
    .op (.movi ct .edi),
    .op (.mov .edx .ecx),
    .op (.repne .scasb),
    .jcc .ne 1 .b,
    .op (.dec .esi),
    .jmp 3 .f,
    .lab 2, .op (.xor .esi .esi),
    .lab 3]
  inputs := [(.eax, 0), (.ecx, 0xffffffff), (.esi, cs)]
  value t := t.reg .esi

def strstr (cs ct : Addr) : Asm where
  code := lengthOf ct ++ [
    .lab 1, .op (.movi ct .edi),
    .op (.mov .esi .eax),
    .op (.mov .edx .ecx),
    .op (.repe .cmpsb),
    .jcc .e 2 .f,
    .op (.xchg .eax .esi),
    .op (.inc .esi),
    .op (.cmpb 0 (-1) .eax),
    .jcc .ne 1 .b,
    .op (.xor .eax .eax),
    .lab 2]
  inputs := [(.eax, 0), (.ecx, 0xffffffff), (.esi, cs)]
  value t := t.reg .eax

def strlen (s : Addr) : Asm where
  code := [
    .op .cld,
    .op (.repne .scasb),
    .op (.not .ecx),
    .op (.dec .ecx)]
  inputs := [(.edi, s), (.eax, 0), (.ecx, 0xffffffff)]
  value t := t.reg .ecx

/-- `saved` is `___strtok`, which `esi` is stored to at the end. -/
def strtok (saved s ct : Addr) : Asm where
  code := [
    .op (.test .esi .esi),
    .jcc .ne 1 .f,
    .op (.test .ebx .ebx),
    .jcc .e 8 .f,
    .op (.mov .ebx .esi),
    .lab 1, .op (.xor .ebx .ebx),
    .op (.movi (-1) .ecx),
    .op (.xor .eax .eax),
    .op .cld,
    .op (.movi ct .edi),
    .op (.repne .scasb),
    .op (.not .ecx),
    .op (.dec .ecx),
    .jcc .e 7 .f,
    .op (.mov .ecx .edx),
    .lab 2, .op (.str .lodsb),
    .op .testAl,
    .jcc .e 7 .f,
    .op (.movi ct .edi),
    .op (.mov .edx .ecx),
    .op (.repne .scasb),
    .jcc .e 2 .b,
    .op (.dec .esi),
    .op (.cmpb 0 0 .esi),
    .jcc .e 7 .f,
    .op (.mov .esi .ebx),
    .lab 3, .op (.str .lodsb),
    .op .testAl,
    .jcc .e 5 .f,
    .op (.movi ct .edi),
    .op (.mov .edx .ecx),
    .op (.repne .scasb),
    .jcc .ne 3 .b,
    .op (.dec .esi),
    .op (.cmpb 0 0 .esi),
    .jcc .e 5 .f,
    .op (.movb 0 .esi),
    .op (.inc .esi),
    .jmp 6 .f,
    .lab 5, .op (.xor .esi .esi),
    .lab 6, .op (.cmpb 0 0 .ebx),
    .jcc .ne 7 .f,
    .op (.xor .ebx .ebx),
    .lab 7, .op (.test .ebx .ebx),
    .jcc .ne 8 .f,
    .op (.mov .ebx .esi),
    .lab 8]
  inputs := [(.ebx, saved), (.esi, s)]
  value t := t.reg .ebx

def memcpy (dest src : Addr) (n : BitVec 32) : Asm where
  code := [
    .op .cld,
    .op (.rep .movsb)]
  inputs := [(.ecx, n), (.esi, src), (.edi, dest)]
  value _ := dest

def memmove (dest src : Addr) (n : BitVec 32) : Asm :=
  if dest < src then
    { code := [
        .op .cld,
        .op (.rep .movsb)]
      inputs := [(.ecx, n), (.esi, src), (.edi, dest)]
      value _ := dest }
  else
    { code := [
        .op .std,
        .op (.rep .movsb)]
      inputs := [(.ecx, n), (.esi, src + n - 1), (.edi, dest + n - 1)]
      value _ := dest }

def memcmp (cs ct : Addr) (count : BitVec 32) : Asm where
  code := [
    .op .cld,
    .op (.repe .cmpsb),
    .jcc .e 1 .f,
    .op (.movi 1 .eax),
    .jcc .l 1 .f,
    .op (.neg .eax),
    .lab 1]
  inputs := [(.eax, 0), (.edi, cs), (.esi, ct), (.ecx, count)]
  value t := t.reg .eax

def memchr (cs : Addr) (c count : BitVec 32) : Asm :=
  if count = 0 then { code := [], inputs := [], value _ := 0 }
  else
    { code := [
        .op .cld,
        .op (.repne .scasb),
        .jcc .e 1 .f,
        .op (.movi 1 .edi),
        .lab 1, .op (.dec .edi)]
      inputs := [(.eax, c), (.edi, cs), (.ecx, count)]
      value t := t.reg .edi }

def memset (s : Addr) (c count : BitVec 32) : Asm where
  code := [
    .op .cld,
    .op (.rep .stosb)]
  inputs := [(.eax, c), (.edi, s), (.ecx, count)]
  value _ := s

end Linux012.Strings
