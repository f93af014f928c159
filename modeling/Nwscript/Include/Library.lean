import Nwscript.Text.Checksum

/-! # The bundled library

Script files that come with the compiler, sorted by name. Each has a pinned checksum. -/

namespace Nwscript

structure LibraryEntry where
  name : String
  source : String
  /-- The checksum that the source should have. -/
  checksum : UInt64
  deriving Repr

def LibraryEntry.verify (e : LibraryEntry) : Bool :=
  Text.checksum (Text.utf8 e.source) == e.checksum

namespace Library

def revision : Nat := 1

def ofLines (lines : List String) : String := String.join (lines.map fun line => line ++ "\n")

def commonFile : LibraryEntry where
  name := "nw_i0_common"
  checksum := 0xC50C8C0A6F3666AC
  source := ofLines
    ["//::///////////////////////////////////////////////",
      "//:: nw_i0_common",
      "//:: Pulls in every bundled helper include.",
      "//:://////////////////////////////////////////////",
      "",
      "#include \"nw_i0_math\"",
      "#include \"nw_i0_string\"",
      "#include \"nw_i0_vector\"",
      "#include \"nw_i0_time\"",
      "#include \"nw_i0_debug\"",
      "#include \"nw_i0_range\""]

def debugFile : LibraryEntry where
  name := "nw_i0_debug"
  checksum := 0x1231C8D21F3CFAA7
  source := ofLines
    ["//::///////////////////////////////////////////////",
      "//:: nw_i0_debug",
      "//:: Leveled logging to the server log.",
      "//:://////////////////////////////////////////////",
      "",
      "#include \"nw_i0_time\"",
      "",
      "const int DEBUG_LEVEL_INFO = 0;",
      "const int DEBUG_LEVEL_WARNING = 1;",
      "const int DEBUG_LEVEL_ERROR = 2;",
      "",
      "string DebugLevelName(int nLevel)",
      "\x7b",
      "    switch (nLevel)",
      "    \x7b",
      "        case DEBUG_LEVEL_WARNING:",
      "            return \"warning\";",
      "        case DEBUG_LEVEL_ERROR:",
      "            return \"error\";",
      "    \x7d",
      "    return \"info\";",
      "\x7d",
      "",
      "void DebugLog(string sMessage, int nLevel = DEBUG_LEVEL_INFO)",
      "\x7b",
      "    PrintString(\"[\" + TimeStamp() + \"] \" + DebugLevelName(nLevel) + \": \" + sMessage);",
      "\x7d",
      "",
      "void DebugLogDelayed(float fDelay, string sMessage)",
      "\x7b",
      "    DelayCommand(fDelay, DebugLog(sMessage));",
      "\x7d"]

def mathFile : LibraryEntry where
  name := "nw_i0_math"
  checksum := 0x1A234CAC678A3B40
  source := ofLines
    ["//::///////////////////////////////////////////////",
      "//:: nw_i0_math",
      "//:: Integer and float helpers.",
      "//:://////////////////////////////////////////////",
      "",
      "const float MATH_EPSILON = 0.0001;",
      "",
      "int MathMin(int nA, int nB)",
      "\x7b",
      "    if (nA < nB)",
      "        return nA;",
      "    return nB;",
      "\x7d",
      "",
      "int MathMax(int nA, int nB)",
      "\x7b",
      "    if (nA > nB)",
      "        return nA;",
      "    return nB;",
      "\x7d",
      "",
      "int MathClamp(int nValue, int nLow, int nHigh)",
      "\x7b",
      "    return MathMax(nLow, MathMin(nValue, nHigh));",
      "\x7d",
      "",
      "int MathAbs(int nValue)",
      "\x7b",
      "    return nValue < 0 ? -nValue : nValue;",
      "\x7d",
      "",
      "float MathLerp(float fFrom, float fTo, float fT)",
      "\x7b",
      "    return fFrom + (fTo - fFrom) * fT;",
      "\x7d",
      "",
      "int MathIsZero(float fValue)",
      "\x7b",
      "    return fValue < MATH_EPSILON && fValue > -MATH_EPSILON;",
      "\x7d",
      "",
      "// Roll nDice dice with nSides sides each and return the sum.",
      "int MathRoll(int nDice, int nSides = 6)",
      "\x7b",
      "    int nTotal = 0;",
      "    int i;",
      "    for (i = 0; i < nDice; i++)",
      "    \x7b",
      "        nTotal += Random(nSides) + 1;",
      "    \x7d",
      "    return nTotal;",
      "\x7d"]

def rangeFile : LibraryEntry where
  name := "nw_i0_range"
  checksum := 0xEFCCEA799ECE55A5
  source := ofLines
    ["//::///////////////////////////////////////////////",
      "//:: nw_i0_range",
      "//:: Inclusive integer ranges.",
      "//:://////////////////////////////////////////////",
      "",
      "struct range",
      "\x7b",
      "    int nLow;",
      "    int nHigh;",
      "\x7d;",
      "",
      "struct range RangeMake(int nLow, int nHigh)",
      "\x7b",
      "    struct range rResult;",
      "    rResult.nLow = nLow;",
      "    rResult.nHigh = nHigh;",
      "    return rResult;",
      "\x7d",
      "",
      "int RangeContains(struct range rRange, int nValue)",
      "\x7b",
      "    return nValue >= rRange.nLow && nValue <= rRange.nHigh;",
      "\x7d",
      "",
      "int RangeRoll(struct range rRange)",
      "\x7b",
      "    return rRange.nLow + Random(rRange.nHigh - rRange.nLow + 1);",
      "\x7d"]

def stringFile : LibraryEntry where
  name := "nw_i0_string"
  checksum := 0xA9951ECBC987C822
  source := ofLines
    ["//::///////////////////////////////////////////////",
      "//:: nw_i0_string",
      "//:: String helpers built on the engine string routines.",
      "//:://////////////////////////////////////////////",
      "",
      "#include \"nw_i0_math\"",
      "",
      "int StringStartsWith(string sText, string sPrefix)",
      "\x7b",
      "    return GetStringLeft(sText, GetStringLength(sPrefix)) == sPrefix;",
      "\x7d",
      "",
      "int StringEndsWith(string sText, string sSuffix)",
      "\x7b",
      "    return GetStringRight(sText, GetStringLength(sSuffix)) == sSuffix;",
      "\x7d",
      "",
      "string StringRepeat(string sText, int nCount)",
      "\x7b",
      "    string sResult = \"\";",
      "    while (nCount-- > 0)",
      "        sResult += sText;",
      "    return sResult;",
      "\x7d",
      "",
      "string StringPadLeft(string sText, int nWidth, string sPad = \" \")",
      "\x7b",
      "    int nMissing = MathMax(0, nWidth - GetStringLength(sText));",
      "    return StringRepeat(sPad, nMissing) + sText;",
      "\x7d",
      "",
      "// Replace every occurrence of sFind in sText with sReplace.",
      "string StringReplace(string sText, string sFind, string sReplace)",
      "\x7b",
      "    int nFindLength = GetStringLength(sFind);",
      "    if (nFindLength == 0)",
      "        return sText;",
      "",
      "    string sResult = \"\";",
      "    int nPos = FindSubString(sText, sFind);",
      "    while (nPos >= 0)",
      "    \x7b",
      "        sResult += GetStringLeft(sText, nPos) + sReplace;",
      "        sText = GetSubString(sText, nPos + nFindLength, GetStringLength(sText));",
      "        nPos = FindSubString(sText, sFind);",
      "    \x7d",
      "    return sResult + sText;",
      "\x7d"]

def timeFile : LibraryEntry where
  name := "nw_i0_time"
  checksum := 0xF1B2DE8E95A36977
  source := ofLines
    ["//::///////////////////////////////////////////////",
      "//:: nw_i0_time",
      "//:: Game clock helpers.",
      "//:://////////////////////////////////////////////",
      "",
      "#include \"nw_i0_string\"",
      "",
      "const int TIME_DAWN_HOUR = 6;",
      "const int TIME_DUSK_HOUR = 20;",
      "",
      "int TimeIsNight()",
      "\x7b",
      "    int nHour = GetTimeHour();",
      "    return nHour < TIME_DAWN_HOUR || nHour >= TIME_DUSK_HOUR;",
      "\x7d",
      "",
      "string TimeStamp()",
      "\x7b",
      "    return StringPadLeft(IntToString(GetTimeHour()), 2, \"0\") + \":\"",
      "         + StringPadLeft(IntToString(GetTimeMinute()), 2, \"0\") + \":\"",
      "         + StringPadLeft(IntToString(GetTimeSecond()), 2, \"0\");",
      "\x7d"]

def vectorFile : LibraryEntry where
  name := "nw_i0_vector"
  checksum := 0x77BC7F6BC64567D7
  source := ofLines
    ["//::///////////////////////////////////////////////",
      "//:: nw_i0_vector",
      "//:: Vector arithmetic helpers.",
      "//:://////////////////////////////////////////////",
      "",
      "float VectorDot(vector vA, vector vB)",
      "\x7b",
      "    return vA.x * vB.x + vA.y * vB.y + vA.z * vB.z;",
      "\x7d",
      "",
      "vector VectorScale(vector vValue, float fScale)",
      "\x7b",
      "    return vValue * fScale;",
      "\x7d",
      "",
      "vector VectorLerp(vector vFrom, vector vTo, float fT)",
      "\x7b",
      "    return vFrom + (vTo - vFrom) * fT;",
      "\x7d",
      "",
      "float VectorLength2D(vector vValue)",
      "\x7b",
      "    return sqrt(vValue.x * vValue.x + vValue.y * vValue.y);",
      "\x7d",
      "",
      "vector VectorFlatten(vector vValue)",
      "\x7b",
      "    vValue.z = 0.0;",
      "    return vValue;",
      "\x7d"]

def entries : List LibraryEntry :=
  [commonFile, debugFile, mathFile, rangeFile, stringFile, timeFile, vectorFile]

def lookup? (name : String) : Option LibraryEntry := entries.find? fun e => e.name == name

end Library
end Nwscript
