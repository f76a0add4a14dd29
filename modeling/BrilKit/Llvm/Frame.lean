import BrilKit.Llvm.Types

/-!
# The frame of an emitted program

The fixed texts around the functions: the banner with the library that printing needs, the head and
the foot of a function, and the entry, which reads the arguments of the command line and calls the
program.
-/

namespace BrilKit

namespace Llvm

def library : List String :=
  [ "target datalayout = "
      ++ "\"e-m:e-p270:32:32-p271:32:32-p272:64:64-i64:64-f80:128-n8:16:32:64-S128\"",
    "target triple = \"x86_64-pc-linux-gnu\"",
    "",
    "@.str = private unnamed_addr constant [5 x i8] c\"true\\00\", align 1",
    "@.str.1 = private unnamed_addr constant [6 x i8] c\"false\\00\", align 1",
    "@.str.2 = private unnamed_addr constant [4 x i8] c\"%ld\\00\", align 1",
    "@.str.3 = private unnamed_addr constant [9 x i8] c\"[object]\\00\", align 1",
    "@.str.4 = private unnamed_addr constant [33 x i8] c\"error: expected %d args, "
      ++ "got %d\\0A\\00\", align 1",
    "",
    "; DECLARE LIBRARY CALLS",
    "declare dso_local i32 @putchar(i32)",
    "declare dso_local i32 @printf(i8*, ...)",
    "declare dso_local void @exit(i32)",
    "declare dso_local i64 @atol(i8*)",
    "declare dso_local noalias i8* @malloc(i64)",
    "declare dso_local void @free(i8*)",
    "",
    "define dso_local i32 @btoi(i8* %0) #0 \x7b",
    "  %2 = alloca i8*, align 8",
    "  store i8* %0, i8** %2, align 8",
    "  %3 = load i8*, i8** %2, align 8",
    "  %4 = load i8, i8* %3, align 1",
    "  %5 = sext i8 %4 to i32",
    "  %6 = icmp eq i32 %5, 116",
    "  %7 = zext i1 %6 to i32",
    "  ret i32 %7",
    "\x7d",
    "",
    "define dso_local void @print_bool(i1 %0) \x7b",
    "  %2 = icmp ne i1 %0, 0",
    "  br i1 %2, label %3, label %5",
    "",
    "3:",
    "  %4 = call i32 (i8*, ...) @printf(i8* getelementptr inbounds ([5 x i8], [5 x "
      ++ "i8]* @.str, i64 0, i64 0))",
    "  br label %7",
    "",
    "5:",
    "  %6 = call i32 (i8*, ...) @printf(i8* getelementptr inbounds ([6 x i8], [6 x "
      ++ "i8]* @.str.1, i64 0, i64 0))",
    "  br label %7",
    "",
    "7:",
    "  ret void",
    "\x7d",
    "",
    "define dso_local void @print_space() \x7b",
    "  %1 = call i32 @putchar(i32 32)",
    "  ret void",
    "\x7d",
    "",
    "define dso_local void @print_newline() \x7b",
    "  %1 = call i32 @putchar(i32 10)",
    "  ret void",
    "\x7d",
    "",
    "define dso_local void @print_int(i64 %0) \x7b",
    "  %2 = alloca i64, align 8",
    "  store i64 %0, i64* %2, align 8",
    "  %3 = load i64, i64* %2, align 8",
    "  %4 = call i32 (i8*, ...) @printf(i8* getelementptr inbounds ([4 x i8], [4 x "
      ++ "i8]* @.str.2, i64 0, i64 0), i64 %3)",
    "  ret void",
    "\x7d",
    "",
    "define dso_local void @print_ptr(i8* %0) \x7b",
    "  %2 = alloca i8*, align 8",
    "  store i8* %0, i8** %2, align 8",
    "  %3 = call i32 (i8*, ...) @printf(i8* getelementptr inbounds ([9 x i8], [9 x "
      ++ "i8]* @.str.3, i64 0, i64 0))",
    "  ret void",
    "\x7d" ]

def banner (source : String) : String :=
  "\n; ModuleID = '" ++ source ++ "'\nsource_filename = \"" ++ source ++ "\"\n"
    ++ String.join (library.map (· ++ "\n")) ++ "\n"

def funcHead (result name params : String) : String :=
  "\ndefine dso_local " ++ result ++ " @" ++ name ++ "(" ++ params ++ ") \x7b\n"

def funcFoot : String := "\n\x7d\n\n"

def entryOpening : List String :=
  [ "define dso_local i32 @main(i32 %argc, i8** %argv) \x7b",
    "  %1 = alloca i32, align 4",
    "  %2 = alloca i32, align 4",
    "  %3 = alloca i8**, align 8",
    "  store i32 0, i32* %1, align 4",
    "  store i32 %argc, i32* %2, align 4",
    "  store i8** %argv, i8*** %3, align 8",
    "  %4 = load i32, i32* %2, align 4",
    "  %5 = sub nsw i32 %4, 1" ]

def entryComplaint : List String :=
  [ "  br i1 %6, label %7, label %11",
    "",
    "7:",
    "  %8 = load i32, i32* %2, align 4",
    "  %9 = sub nsw i32 %8, 1" ]

def entryStart : List String :=
  [ "  call void @exit(i32 2) #3",
    "  unreachable",
    "",
    "11:",
    "  %12 = load i8**, i8*** %3, align 8" ]

def joinLines (ls : List String) : String := String.join (ls.map (· ++ "\n"))

def readArgument (k : Nat) (t : Ty) : String :=
  let n := toString k
  let start := joinLines
    [ "", "  %t" ++ n ++ "_0 = getelementptr inbounds i8*, i8** %12, i64 " ++ toString (k + 1),
      "  %t" ++ n ++ "_1 = load i8*, i8** %t" ++ n ++ "_0, align 8" ]
  let convert :=
    if t = .int then [ "  %a" ++ n ++ " = call i64 @atol(i8* %t" ++ n ++ "_1)" ]
    else
      [ "  %t" ++ n ++ "_2 = call i32 @btoi(i8* %t" ++ n ++ "_1)",
        "  %a" ++ n ++ " = trunc i32 %t" ++ n ++ "_2 to i1" ]
  start ++ joinLines convert ++ "  "

def entryText (params : List Param) : Outcome String := do
  let count := toString params.length
  let items ← params.zipIdx.mapM fun (p, k) => do
    let t ← p.getType
    return (readArgument k t, (← typeText t) ++ " %a" ++ toString k)
  let arguments := ", ".intercalate (items.map Prod.snd)
  let complaint := "  %10 = call i32 (i8*, ...) @printf(i8* getelementptr inbounds ("
    ++ "[33 x i8], [33 x i8]* @.str.4, i64 0, i64 0), i32 "
  return "\n" ++ joinLines entryOpening
    ++ "  %6 = icmp ne i32 %5, " ++ count ++ "  ; NUM ARGS" ++ "\n"
    ++ joinLines entryComplaint ++ complaint ++ count ++ ", i32 %9)" ++ "\n" ++ joinLines entryStart
    ++ String.join (items.map Prod.fst) ++ "\n" ++ "  call void @__main(" ++ arguments
    ++ ")\n  ret i32 0\n\x7d\n" ++ "\n"

end Llvm

end BrilKit
